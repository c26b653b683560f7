import Vecoda.Backend
import Vecoda.Transitions

/-!
# The registered virtual machines

m_vms and m_stateToVm are kept in step by AttachState and DetachState, whether
or not lua_checkstack fails between the registration and the CreateVM event.
The front end is kept in step with both exactly as long as it does not fail.
-/

set_option autoImplicit false

namespace Vecoda.Registration
open Backend Transitions

inductive Call where
  | attach (L : LuaState) (attached checkstack : Bool)
  | detach (L : LuaState)
  deriving DecidableEq, Repr

def perform (b : DebugBackend) : Call → DebugBackend
  | .attach L attached checkstack => (b.attachState L attached checkstack).1
  | .detach L => b.detachState L

def Step (b : DebugBackend) (c : Call) (b' : DebugBackend) : Prop := b' = perform b c

def announce (live : List LuaState) : Report → List LuaState
  | .createVM L => live ++ [L]
  | .destroyVM L => live.filter (· ≠ L)
  | _ => live

def announced (reports : List Report) : List LuaState := reports.foldl announce []

def entries (b : DebugBackend) : List LuaState := b.stateToVm.map Prod.fst

/-- The two containers name the same virtual machines, each of them once. -/
structure Listed (b : DebugBackend) : Prop where
  nodup : b.vms.Nodup
  entries : entries b = b.vms

structure Registered (b : DebugBackend) : Prop where
  vms : b.vms.Nodup
  entries : (entries b).Nodup
  mapped : ∀ L, L ∈ Registration.entries b ↔ L ∈ b.vms
  announced : ∀ L, L ∈ b.vms ↔ L ∈ announced b.reports

def NullUnchanged (b : DebugBackend) : Call → Prop
  | .attach L attached checkstack =>
      (b.attachState L attached checkstack).2 = none →
        (b.attachState L attached checkstack).1.vms = b.vms ∧
        (b.attachState L attached checkstack).1.stateToVm = b.stateToVm ∧
        (b.attachState L attached checkstack).1.reports = b.reports
  | .detach _ => True

def Checked (b : DebugBackend) : Call → Prop
  | .attach L attached checkstack => attached = true → L ∉ b.vms → checkstack = true
  | .detach _ => True

section Containers

variable {b : DebugBackend} {L : LuaState}

theorem getVm_isSome_iff : (b.getVm L).isSome = true ↔ L ∈ entries b := by
  rw [DebugBackend.getVm, List.lookup_isSome_iff, entries, List.mem_map]
  exact ⟨fun ⟨e,he,hL⟩ => ⟨e,he,(eq_of_beq hL).symm⟩,fun ⟨e,he,hL⟩ => ⟨e,he,by simp [hL]⟩⟩

theorem getVm_none_iff (h : Listed b) : b.getVm L = none ↔ L ∉ b.vms := by
  rw [← h.entries, ← getVm_isSome_iff, Option.not_isSome_iff_eq_none]

@[simp] theorem entries_modifyVm (f : VirtualMachine → VirtualMachine) :
    entries (b.modifyVm L f) = entries b := by
  rw [entries, DebugBackend.modifyVm, entries, List.map_map]
  apply List.map_congr_left
  intro e he
  simp only [Function.comp_apply]
  split <;> rfl

@[simp] theorem entries_modifyVms (f : VirtualMachine → VirtualMachine) :
    entries (b.modifyVms f) = entries b := by
  rw [entries, DebugBackend.modifyVms, entries, List.map_map]
  rfl

/-- What changes neither container changes no agreement of the two. -/
theorem listed_congr {b' : DebugBackend} (h : Listed b) (hvms : b'.vms = b.vms)
    (hentries : entries b' = entries b) : Listed b' :=
  ⟨hvms ▸ h.nodup,by rw [hentries, h.entries, hvms]⟩

theorem filter_other {vms : List LuaState} (h : L ∉ vms) : vms.filter (· ≠ L) = vms := by
  rw [List.filter_eq_self]
  exact fun M hM => decide_eq_true (fun he => h (he ▸ hM))

/-- The entry the loop steps over is not one it has to erase. -/
theorem eraseVms_eq (vms : List LuaState) (h : vms.Nodup) :
    DebugBackend.eraseVms L vms = vms.filter (· ≠ L) := by
  fun_induction DebugBackend.eraseVms L vms with
  | case1 => rfl
  | case2 => simp
  | case3 N rest ih =>
    obtain ⟨hL,hrest⟩ := List.nodup_cons.mp h
    have hN : N ≠ L := fun he => hL (by simp [he])
    rw [List.filter_cons_of_neg (by simp), List.filter_cons_of_pos (by simpa using hN),
      ih (List.nodup_cons.mp hrest).2]
  | case4 M rest hne ih =>
    rw [List.filter_cons_of_pos (by simpa using hne), ih (List.nodup_cons.mp h).2]

theorem announced_append (reports : List Report) (r : Report) :
    announced (reports ++ [r]) = announce (announced reports) r := by
  rw [announced, List.foldl_append]
  rfl

end Containers

section Calls

variable {b : DebugBackend} {L : LuaState} {attached checkstack : Bool}

theorem attachState_known (h : Listed b) (hk : attached = true → L ∈ b.vms) :
    (b.attachState L attached checkstack).1 = b := by
  cases attached with
  | false => rfl
  | true =>
    cases hv : b.getVm L with
    | none => exact absurd (hk rfl) ((getVm_none_iff h).mp hv)
    | some vm => simp [DebugBackend.attachState, hv]

theorem attachState_new (h : Listed b) (hL : L ∉ b.vms) (checkstack : Bool) :
    (b.attachState L true checkstack).1.vms = b.vms ++ [L] ∧
    entries (b.attachState L true checkstack).1 = entries b ++ [L] ∧
    (b.attachState L true checkstack).1.reports =
      (if checkstack then b.reports ++ [.createVM L] else b.reports) ∧
    ((b.attachState L true checkstack).2 = none ↔ checkstack = false) := by
  cases checkstack <;> simp [DebugBackend.attachState, (getVm_none_iff h).mpr hL, entries,
    DebugBackend.report, DebugBackend.setHookMode]

theorem detachState_spec (h : Listed b) :
    (b.detachState L).vms = b.vms.filter (· ≠ L) ∧
    entries (b.detachState L) = (entries b).filter (· ≠ L) ∧
    (b.detachState L).reports = (if L ∈ b.vms then b.reports ++ [.destroyVM L] else b.reports) := by
  have hvms := eraseVms_eq (L := L) b.vms h.nodup
  by_cases hL : L ∈ b.vms
  · have hsome : (b.getVm L).isSome = true := getVm_isSome_iff.mpr (h.entries ▸ hL)
    simp only [DebugBackend.detachState, hsome, if_true, DebugBackend.report, hvms, hL, entries,
      List.filter_map, true_and, and_true]
    rfl
  · have hnone : b.getVm L = none := (getVm_none_iff h).mpr hL
    have hentries : (entries b).filter (· ≠ L) = entries b := filter_other (h.entries ▸ hL)
    simp only [DebugBackend.detachState, hnone, Option.isSome_none, Bool.false_eq_true, if_false,
      hvms, hL, hentries, true_and, and_true]
    rfl

/-- The containers agree after every call. -/
theorem listed_step {b b' : DebugBackend} {c : Call} (h : Listed b) (hs : Step b c b') :
    Listed b' := by
  cases hs
  cases c with
  | attach L attached checkstack =>
    by_cases hk : attached = true → L ∈ b.vms
    · rw [perform, attachState_known h hk]
      exact h
    · obtain ⟨rfl,hL⟩ := Classical.not_imp.mp hk
      obtain ⟨hvms,hentries,-⟩ := attachState_new h hL checkstack
      refine ⟨?_,?_⟩
      · rw [perform, hvms]
        exact List.nodup_append.mpr ⟨h.nodup,by simp,
        fun M hM N hN he => hL (List.mem_singleton.mp hN ▸ he ▸ hM)⟩
      · rw [perform, hvms, hentries, h.entries]
  | detach L =>
    obtain ⟨hvms,hentries,-⟩ := detachState_spec (L := L) h
    refine ⟨?_,?_⟩
    · rw [perform, hvms]
      exact h.nodup.filter _
    · rw [perform, hvms, hentries, h.entries]

end Calls

/-- The front end has the virtual machines in the order of m_vms. -/
structure InStep (b : DebugBackend) : Prop extends Listed b where
  live : announced b.reports = b.vms

theorem registered_of_inStep (b : DebugBackend) (h : InStep b) : Registered b := by
  refine ⟨h.nodup,?_,fun L => ?_,fun L => ?_⟩
  · rw [h.entries]
    exact h.nodup
  · rw [h.entries]
  · rw [h.live]

theorem inStep_step (b : DebugBackend) (c : Call) (b' : DebugBackend) (h : InStep b) (hs : Step b c b')
    (hc : Checked b c) : InStep b' := by
  refine ⟨listed_step h.toListed hs,?_⟩
  cases hs
  cases c with
  | attach L attached checkstack =>
    by_cases hk : attached = true → L ∈ b.vms
    · rw [perform, attachState_known h.toListed hk]
      exact h.live
    · obtain ⟨rfl,hL⟩ := Classical.not_imp.mp hk
      obtain ⟨hvms,-,hreports,-⟩ := attachState_new h.toListed hL checkstack
      rw [perform, hvms, hreports, if_pos (hc rfl hL), announced_append, h.live]
      rfl
  | detach L =>
    obtain ⟨hvms,-,hreports⟩ := detachState_spec (L := L) h.toListed
    rw [perform, hvms, hreports]
    split
    · rw [announced_append, h.live]
      rfl
    · rename_i hL
      rw [h.live, filter_other hL]

theorem nullUnchanged_of_checked {b : DebugBackend} {c : Call} (h : Listed b) (hc : Checked b c) :
    NullUnchanged b c := by
  cases c with
  | attach L attached checkstack =>
    intro hnull
    by_cases hk : attached = true → L ∈ b.vms
    · rw [attachState_known h hk]
      exact ⟨rfl,rfl,rfl⟩
    · obtain ⟨rfl,hL⟩ := Classical.not_imp.mp hk
      have hfails := (attachState_new h hL checkstack).2.2.2.mp hnull
      rw [hc rfl hL] at hfails
      cases hfails
  | detach L => trivial

/-- A failure leaves a virtual machine registered that the front end never hears of. -/
theorem not_registered_step (b : DebugBackend) (c : Call) (b' : DebugBackend) (h : InStep b) (hs : Step b c b')
    (hc : ¬ Checked b c) : ¬ Registered b' := by
  cases hs
  cases c with
  | attach L attached checkstack =>
    rw [Checked, Classical.not_imp, Classical.not_imp] at hc
    obtain ⟨rfl,hL,hfails⟩ := hc
    obtain ⟨hvms,-,hreports,-⟩ := attachState_new h.toListed hL checkstack
    intro hr
    have hlive := (hr.announced L).mp (by rw [perform, hvms]; simp)
    rw [perform, hreports, if_neg hfails, h.live] at hlive
    exact hL hlive
  | detach L => exact absurd trivial hc

theorem inStep_initial : InStep DebugBackend.initial := ⟨⟨List.nodup_nil,rfl⟩,rfl⟩

theorem meets_nullUnchanged (b : DebugBackend) (calls : List Call) (h : InStep b)
    (hm : Meets Step Checked b calls) : Meets Step NullUnchanged b calls := by
  induction calls generalizing b with
  | nil => trivial
  | cons c calls ih =>
    intro b' hs
    obtain ⟨hc,hm⟩ := hm b' hs
    exact ⟨nullUnchanged_of_checked h.toListed hc,ih b' (inStep_step b c b' h hs hc) hm⟩

/-- Registration is all or nothing in every state of a run, and in every call of
it, exactly when lua_checkstack succeeds for every virtual machine that is new. -/
theorem registered_along_iff (calls : List Call) :
    Along Step Registered DebugBackend.initial calls ∧
      Meets Step NullUnchanged DebugBackend.initial calls ↔
    Meets Step Checked DebugBackend.initial calls := by
  have hiff := along_iff_meets registered_of_inStep inStep_step not_registered_step
    DebugBackend.initial calls inStep_initial
  exact ⟨fun h => hiff.mp h.1,fun hm => ⟨hiff.mpr hm,meets_nullUnchanged _ calls inStep_initial hm⟩⟩

def halfRegistered : List Call := [.attach 1 true false]

theorem halfRegistered_not_registered :
    ¬ (Along Step Registered DebugBackend.initial halfRegistered ∧
      Meets Step NullUnchanged DebugBackend.initial halfRegistered) := by
  intro h
  have hend := along_start (h.1.2 _ rfl)
  exact absurd ((hend.announced 1).mp (by decide)) (by decide)

end Vecoda.Registration
