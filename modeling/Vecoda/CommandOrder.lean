import Mathlib.Data.List.Induction
import Vecoda.StaleResume

/-!
# Evaluations in the command channel

An evaluation is written for a thread that the adapter knows to be stopped, and
the command that resumes the thread is written after it. The two are read in
that order, so that the thread still waits when the evaluation is run.
-/

set_option autoImplicit false

namespace Vecoda.CommandOrder
open Backend Resuming StaleResume
open HandleBreak (StopEvent)
open Variables (Command)

/-- The address of a `lua_State`, which is aligned and leaves room for a position. -/
structure Handle (L : LuaState) : Prop where
  aligned : L % 4 = 0
  bound : L < 2^59

def Waits (s : State) (L : LuaState) : Prop := s.blocked L = true ∧ signalled s.backend L = false

instance (s : State) (L : LuaState) : Decidable (Waits s L) := inferInstanceAs (Decidable (_ ∧ _))

/-- What the debuggee does of its own accord. The stack entries sent are at most
`s_maxStackSize`. -/
inductive Occurs : Label → Prop where
  | attachState (L : LuaState) (checkstack : Bool) : Handle L → Occurs (.attachState L checkstack)
  | detachState (L : LuaState) : Occurs (.detachState L)
  | sendBreak (L : LuaState) (stop : StopEvent) : stop.stack.frames.length ≤ 100 →
      Occurs (.sendBreak L stop)
  | wake (L : LuaState) : Occurs (.wake L)
  | command : Occurs .command
  | evaluated (success : Bool) (text : MessagePipe.Bytes) : Occurs (.evaluated success text)

structure Ordered (s : State) : Prop extends Settled s where
  handles : ∀ L, (s.backend.getVm L).isSome = true → Handle L
  queued : ∀ before c after, s.commands = before ++ .evaluate c :: after → c.vm % 4 = 0 →
    Waits s c.vm ∧ ∀ how n, .resume how c.vm n ∉ before
  evaluating : ∀ c, s.commandThread = .evaluating c → Waits s c.vm ∧ s.detachEvent = false

section Backend

variable {s s' : State} {L : LuaState}

/-- The adapter's side of the channels is its own. -/
theorem occurs_adapter {l : Label} (ho : Occurs l) (hs : Step s l s') :
    s'.debugdata = s.debugdata ∧ s'.stopped = s.stopped := by
  cases ho with
  | attachState L checkstack =>
    cases hs
    exact ⟨rfl,rfl⟩
  | detachState L =>
    simp only [Step, step, detachState] at hs
    split at hs <;> cases hs
    exact ⟨rfl,rfl⟩
  | sendBreak L stop =>
    simp only [Step, step, sendBreak] at hs
    split at hs <;> cases hs
    exact ⟨rfl,rfl⟩
  | wake L =>
    simp only [Step, step, wake] at hs
    split at hs <;> cases hs
    exact ⟨rfl,rfl⟩
  | command =>
    simp only [Step, step, commandThreadProc] at hs
    split at hs
    · split at hs <;> cases hs
      exact ⟨rfl,rfl⟩
    · split at hs <;> cases hs <;> exact ⟨rfl,rfl⟩
    · cases hs
      exact ⟨rfl,rfl⟩
    · cases hs
  | evaluated success text =>
    simp only [Step, step, evaluated] at hs
    split at hs <;> cases hs
    exact ⟨rfl,rfl⟩

/-- The stops of a step come from registered machines. -/
theorem occurs_events {l : Label} (ho : Occurs l) (hs : Step s l s') {number : ℕ} {stop : StopEvent}
    (hm : .break L number stop ∈ s'.events) : .break L number stop ∈ s.events ∨
      ((s.backend.getVm L).isSome = true ∧ stop.stack.frames.length ≤ 100) := by
  cases ho with
  | attachState M checkstack =>
    cases hs
    exact .inl hm
  | detachState M =>
    simp only [Step, step, detachState] at hs
    split at hs <;> cases hs
    exact .inl hm
  | sendBreak M stop' hlength =>
    simp only [Step, step, sendBreak] at hs
    split at hs
    · cases hs
    · rename_i hguard
      simp only [Bool.or_eq_true, not_or, Option.isNone_iff_eq_none,
        ← Option.isSome_iff_ne_none] at hguard
      cases hs
      rcases List.mem_append.mp hm with hold | hnew
      · exact .inl hold
      · cases List.mem_singleton.mp hnew
        exact .inr ⟨hguard.2,hlength⟩
  | wake M =>
    simp only [Step, step, wake] at hs
    split at hs <;> cases hs
    exact .inl hm
  | command =>
    simp only [Step, step, commandThreadProc] at hs
    split at hs
    · split at hs <;> cases hs
      exact .inl hm
    · split at hs <;> cases hs
      · exact .inl (by simpa using hm)
      · exact .inl hm
    · cases hs
      exact .inl hm
    · cases hs
  | evaluated success text =>
    simp only [Step, step, evaluated] at hs
    split at hs <;> cases hs
    exact .inl (by simpa using hm)

/-- Steps that leave the commands alone, and wake nobody who is asked. -/
theorem ordered_kept (h : Ordered s) (hs : Settled s') (hc : s'.commands = s.commands)
    (ht : s'.commandThread = s.commandThread) (hd : s'.detachEvent = s.detachEvent)
    (hh : ∀ L, (s'.backend.getVm L).isSome = true → Handle L)
    (hw : ∀ L, Waits s L → s.detachEvent = false → Waits s' L) : Ordered s' := by
  refine ⟨hs,hh,fun before c after he halign => ?_,fun c he => ?_⟩
  · rw [hc] at he
    obtain ⟨hwaits,hbefore⟩ := h.queued before c after he halign
    refine ⟨hw _ hwaits ?_,hbefore⟩
    rw [← Bool.not_eq_true]
    intro hdetach
    rw [(h.detached hdetach).1] at he
    simp at he
  · rw [ht] at he
    obtain ⟨hwaits,hdetach⟩ := h.evaluating c he
    exact ⟨hw _ hwaits hdetach,hd.trans hdetach⟩

theorem handles_entries {b : DebugBackend} (h : ∀ L, (b.getVm L).isSome = true → Handle L)
    {b' : DebugBackend} (he : ∀ L ∈ Registration.entries b', L ∈ Registration.entries b ∨ Handle L) :
    ∀ L, (b'.getVm L).isSome = true → Handle L := by
  intro L hL
  rcases he L (Registration.getVm_isSome_iff.mp hL) with hold | hnew
  · exact h L (Registration.getVm_isSome_iff.mpr hold)
  · exact hnew

theorem ordered_attachState (h : Ordered s) (checkstack : Bool) (hL : Handle L)
    (hs : attachState s L checkstack = some s') : Ordered s' := by
  have hsettled := settled_attachState h.toSettled checkstack hs
  cases hs
  refine ordered_kept h hsettled rfl rfl rfl (handles_entries h.handles (fun M hM => ?_))
    (fun M hw _ => ?_)
  · by_cases hk : (!s.detachEvent) = true → L ∈ s.backend.vms
    · dsimp only at hM
      rw [Registration.attachState_known h.listed hk] at hM
      exact .inl hM
    · obtain ⟨hd,hnew⟩ := Classical.not_imp.mp hk
      dsimp only at hM
      rw [hd, (Registration.attachState_new h.listed hnew checkstack).2.1] at hM
      exact (List.mem_append.mp hM).imp_right (fun he => by rwa [List.mem_singleton.mp he])
  · refine ⟨hw.1,?_⟩
    rw [← hw.2]
    exact signalled_attachState h.listed _ _

theorem ordered_detachState (h : Ordered s) (hs : detachState s L = some s') : Ordered s' := by
  have hsettled := settled_detachState h.toSettled hs
  unfold detachState at hs
  split at hs
  · cases hs
  · cases hs
    refine ordered_kept h hsettled rfl rfl rfl (handles_entries h.handles (fun M hM => ?_))
      (fun M hw _ => ⟨hw.1,?_⟩)
    · dsimp only at hM
      rw [(Registration.detachState_spec h.listed).2.1] at hM
      exact .inl (List.mem_filter.mp hM).1
    · dsimp only
      rw [signalled_detachState, hw.2, ite_self]

theorem ordered_sendBreak (h : Ordered s) (stop : StopEvent) (hs : sendBreak s L stop = some s') :
    Ordered s' := by
  have hsettled := settled_sendBreak h.toSettled stop hs
  unfold sendBreak at hs
  split at hs
  · cases hs
  · cases hs
    refine ordered_kept h hsettled rfl rfl rfl h.handles (fun M hw _ => ⟨?_,hw.2⟩)
    by_cases hM : M = L
    · simp [hM]
    · dsimp only
      rw [Function.update_of_ne hM]
      exact hw.1

theorem ordered_wake (h : Ordered s) (hs : wake s L = some s') : Ordered s' := by
  have hsettled := settled_wake h.toSettled hs
  unfold wake at hs
  split at hs
  · rename_i hguard
    simp only [Bool.and_eq_true, Bool.or_eq_true] at hguard
    cases hs
    refine ordered_kept h hsettled rfl rfl rfl (handles_entries h.handles (fun M hM => ?_))
      (fun M hw hd => ?_)
    · dsimp only at hM
      rw [Registration.entries_modifyVm] at hM
      exact .inl hM
    · have hM : M ≠ L := by
        rintro rfl
        rcases hguard.2 with hsig | hdetach
        · rw [hw.2] at hsig
          cases hsig
        · rw [hd] at hdetach
          cases hdetach
      refine ⟨?_,?_⟩
      · dsimp only
        rw [Function.update_of_ne hM]
        exact hw.1
      · dsimp only
        rw [signalled_resetEvent, if_neg hM]
        exact hw.2
  · cases hs

/-- The commands behind the one that is processed. -/
theorem queued_rest (h : Ordered s) {i : Instruction} {rest : List Instruction}
    (hc : s.commands = i :: rest) (before : List Instruction) (c : Command) (after : List Instruction)
    (he : rest = before ++ .evaluate c :: after) (halign : c.vm % 4 = 0) :
    Waits s c.vm ∧ (∀ how n, .resume how c.vm n ∉ before) ∧ ∀ how n, i ≠ .resume how c.vm n := by
  obtain ⟨hwaits,hbefore⟩ := h.queued (i::before) c after (by rw [hc, he]; rfl) halign
  refine ⟨hwaits,fun how n hm => hbefore how n (List.mem_cons_of_mem i hm),fun how n hi => ?_⟩
  exact hbefore how n (by rw [hi]; exact List.mem_cons_self)

theorem ordered_command (h : Ordered s) (hs : commandThreadProc s = some s') : Ordered s' := by
  have hsettled := settled_command h.toSettled hs
  unfold commandThreadProc at hs
  split at hs
  · rename_i how L number rest hread hc
    split at hs
    · cases hs
    · rename_i hL
      have hL := Bool.eq_false_iff.mpr hL
      cases hs
      refine ⟨hsettled,handles_entries h.handles (fun M hM => ?_),fun before c after he halign => ?_,
        fun c he => ?_⟩
      · obtain ⟨f,hook,hr,-⟩ := resume_spec (b := s.backend) (L := L) how
        dsimp only at hM
        rw [hr] at hM
        exact .inl ((Registration.entries_modifyVm (L := L) f) ▸ hM)
      · obtain ⟨hwaits,hbefore,hi⟩ := queued_rest h hc before c after he halign
        have hne : c.vm ≠ L := fun he => hi how number (by rw [he])
        refine ⟨⟨hwaits.1,?_⟩,hbefore⟩
        dsimp only
        rw [signalled_resume how hL, if_neg hne]
        exact hwaits.2
      · rw [hread] at he
        cases he
  · rename_i c rest hread hc
    split at hs
    · cases hs
      refine ⟨hsettled,h.handles,fun before c' after he halign => ?_,fun c' he => ?_⟩
      · obtain ⟨hwaits,hbefore,-⟩ := queued_rest h hc before c' after he halign
        exact ⟨hwaits,hbefore⟩
      · rw [hread] at he
        cases he
    · rename_i hvm
      cases hs
      refine ⟨hsettled,h.handles,fun before c' after he halign => ?_,fun c' he => ?_⟩
      · obtain ⟨hwaits,hbefore,-⟩ := queued_rest h hc before c' after he halign
        exact ⟨hwaits,hbefore⟩
      · cases he
        have hhandle : Handle c.vm := h.handles c.vm (by simpa [Option.isSome_iff_ne_none] using hvm)
        refine ⟨(h.queued [] c rest hc hhandle.aligned).1,?_⟩
        rw [← Bool.not_eq_true]
        intro hdetach
        have hnil := (h.detached hdetach).1
        rw [hc] at hnil
        cases hnil
  · rename_i continueRunning rest hread hc
    cases hs
    have hrest : rest = [] := (hsettled.detached rfl).1
    subst hrest
    refine ⟨hsettled,handles_entries h.handles (fun M hM => ?_),fun before c after he => ?_,
      fun c he => ?_⟩
    · cases continueRunning with
      | true => exact .inl hM
      | false => exact absurd hM List.not_mem_nil
    · exact absurd he (by simp)
    · cases continueRunning <;> cases he
  · cases hs

theorem ordered_evaluated (h : Ordered s) (success : Bool) (text : MessagePipe.Bytes)
    (hs : evaluated s success text = some s') : Ordered s' := by
  have hsettled := settled_evaluated h.toSettled success text hs
  unfold evaluated at hs
  split at hs
  · cases hs
    exact ⟨hsettled,h.handles,h.queued,nofun⟩
  · cases hs

theorem ordered_occurs {l : Label} (h : Ordered s) (ho : Occurs l) (hs : Step s l s') : Ordered s' := by
  cases ho with
  | attachState L checkstack hL => exact ordered_attachState h checkstack hL hs
  | detachState L => exact ordered_detachState h hs
  | sendBreak L stop => exact ordered_sendBreak h stop hs
  | wake L => exact ordered_wake h hs
  | command => exact ordered_command h hs
  | evaluated success text => exact ordered_evaluated h success text hs

end Backend

section Adapter

variable {s s' : State} {L : LuaState}

theorem ordered_receive (h : Ordered s) (hs : receive s = some s') : Ordered s' := by
  have hsettled := settled_receive h.toSettled hs
  unfold receive at hs
  split at hs
  · cases hs
  · split at hs
    · cases hs
    · cases hs
      exact ⟨hsettled,h.handles,h.queued,h.evaluating⟩
    · cases hs
      exact ⟨hsettled,h.handles,h.queued,h.evaluating⟩

/-- What is written comes after every evaluation that is on its way. -/
theorem queued_write (h : Ordered s) (i : Instruction) (before : List Instruction) (c : Command)
    (after : List Instruction) (he : s.commands ++ [i] = before ++ .evaluate c :: after)
    (hi : i = .evaluate c → c.vm % 4 = 0 → Waits s c.vm ∧ ∀ how n, .resume how c.vm n ∉ s.commands)
    (halign : c.vm % 4 = 0) : Waits s c.vm ∧ ∀ how n, .resume how c.vm n ∉ before := by
  cases after using List.reverseRecOn with
  | nil =>
    obtain ⟨hb,hlast⟩ := List.append_inj' he rfl
    rw [← hb]
    exact hi (List.singleton_inj.mp hlast) halign
  | append_singleton after j =>
    have he' : s.commands ++ [i] = (before ++ .evaluate c :: after) ++ [j] := by simpa using he
    exact h.queued before c after (List.append_inj' he' rfl).1 halign

theorem ordered_resume (h : Ordered s) (how : Resume)
    (hk : s.debugdata = true → s.stopped L = true) : Ordered (writeResume s how L) := by
  have hsettled := settled_resume h.toSettled how hk
  unfold writeResume at hsettled ⊢
  split
  · exact h
  · rename_i hdata
    rw [if_neg hdata] at hsettled
    exact ⟨hsettled,h.handles,fun before c after he halign =>
      queued_write h _ before c after he (fun hi => by cases hi) halign,h.evaluating⟩

theorem ordered_evaluate (h : Ordered s) (c : Command)
    (hk : s.debugdata = true → c.vm % 4 = 0 → s.stopped c.vm = true) : Ordered (writeEvaluate s c) := by
  have hsettled := settled_evaluate h.toSettled c
  unfold writeEvaluate at hsettled ⊢
  split
  · exact h
  · rename_i hdata
    rw [if_neg hdata] at hsettled
    refine ⟨hsettled,h.handles,fun before c' after he halign =>
      queued_write h _ before c' after he (fun hi halign' => ?_) halign,h.evaluating⟩
    cases hi
    rw [Bool.not_eq_true', Bool.not_eq_false] at hdata
    obtain ⟨hblocked,-,hresumes,hsig⟩ := stopped_waits h.toSettled hdata (hk hdata halign')
    exact ⟨⟨hblocked,hsig⟩,hresumes⟩

theorem ordered_stop (h : Ordered s) (continueRunning : Bool) :
    Ordered (Resuming.stop s continueRunning) := by
  have hsettled := settled_stop h.toSettled continueRunning
  unfold Resuming.stop at hsettled ⊢
  split
  · exact h
  · rename_i hdata
    rw [if_neg hdata] at hsettled
    exact ⟨hsettled,h.handles,fun before c after he halign =>
      queued_write h _ before c after he (fun hi => by cases hi) halign,h.evaluating⟩

end Adapter

end Vecoda.CommandOrder
