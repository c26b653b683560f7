import Vecoda.Resuming
import Vecoda.Transitions

/-!
# No stale resume

A stop is passed on as one token: the break event on its way, the thread the
adapter knows to be stopped, the resume command on its way, and the signalled
event. As long as the adapter only resumes threads it knows to be stopped, a
machine that waits has at most one token and a running one has none.
-/

set_option autoImplicit false

namespace Vecoda.StaleResume
open Backend Resuming Transitions
open Registration (Listed listed_step)
open HandleBreak (StopEvent breakAt)
open Variables (Command)

def isBreak (L : LuaState) : Event → Bool
  | .break M _ _ => M = L
  | .result _ _ _ => false

def isResume (L : LuaState) : Instruction → Bool
  | .resume _ M _ => M = L
  | _ => false

def isDetach : Instruction → Bool
  | .detach _ => true
  | _ => false

/-- A machine goes on only once a resume command of its last break was processed, or
after a detach, and takes no signal along. -/
def Answered (s : State) : Prop :=
  ∀ L, (s.blocked L = true ∨ s.sent L ≤ s.released L) ∧
    (s.blocked L = false → signalled s.backend L = false)

/-- The adapter resumes only a thread that it knows to be stopped. -/
def Known (s : State) : Label → Prop
  | .resume _ L => s.debugdata = true → s.stopped L = true
  | _ => True

def announced (s : State) (L : LuaState) : ℕ :=
  if s.debugdata then (s.stopped L).toNat + s.events.countP (isBreak L) else 0

def tokens (s : State) (L : LuaState) : ℕ :=
  announced s L + s.commands.countP (isResume L) + (signalled s.backend L).toNat

structure Settled (s : State) : Prop where
  listed : Listed s.backend
  tokens : ∀ L, tokens s L ≤ (s.blocked L).toNat
  breaks : s.debugdata = true → ∀ L n stop, .break L n stop ∈ s.events → n = s.sent L
  received : s.debugdata = true → ∀ L, s.stopped L = true → s.received L = s.sent L
  resumes : ∀ how L n, .resume how L n ∈ s.commands → n = s.sent L
  released : ∀ L, s.blocked L = false ∨ signalled s.backend L = true → s.sent L ≤ s.released L
  detached : s.detachEvent = true → s.commands = [] ∧ s.debugdata = false ∧
    ∀ L, s.sent L ≤ s.released L
  last : ∀ i ∈ s.commands.dropLast, isDetach i = false
  «open» : s.debugdata = true → ∀ i ∈ s.commands, isDetach i = false

section Tokens

variable {s : State} {L : LuaState}

theorem answered_of_settled (s : State) (h : Settled s) : Answered s := by
  intro L
  have ht := h.tokens L
  constructor
  · cases hb : s.blocked L with
    | true => exact .inl rfl
    | false => exact .inr (h.released L (.inl hb))
  · intro hb
    rw [hb, tokens] at ht
    cases hsig : signalled s.backend L with
    | false => rfl
    | true => simp [hsig] at ht

/-- A running machine is not expected by anyone. -/
theorem running_quiet (h : Settled s) (hb : s.blocked L = false) :
    (s.debugdata = true → s.stopped L = false ∧ ∀ n stop, .break L n stop ∉ s.events) ∧
    (∀ how n, .resume how L n ∉ s.commands) ∧ signalled s.backend L = false := by
  have ht := h.tokens L
  rw [hb, tokens, announced] at ht
  refine ⟨fun hd => ?_,fun how n hm => ?_,(answered_of_settled s h L).2 hb⟩
  · simp only [hd, if_true, Bool.toNat_false, Nat.le_zero, Nat.add_eq_zero_iff,
      List.countP_eq_zero] at ht
    refine ⟨by simpa using ht.1.1.1,fun n stop hm => ?_⟩
    exact ht.1.1.2 _ hm (by simp [isBreak])
  · simp only [Bool.toNat_false, Nat.le_zero, Nat.add_eq_zero_iff, List.countP_eq_zero] at ht
    exact ht.1.2 _ hm (by simp [isResume])

/-- A thread that the adapter knows to be stopped waits, and nothing wakes it. -/
theorem stopped_waits (h : Settled s) (hd : s.debugdata = true) (hs : s.stopped L = true) :
    s.blocked L = true ∧ (∀ n stop, .break L n stop ∉ s.events) ∧
    (∀ how n, .resume how L n ∉ s.commands) ∧ signalled s.backend L = false := by
  have ht := h.tokens L
  have hle : (s.blocked L).toNat ≤ 1 := Bool.toNat_le _
  simp only [tokens, announced, hd, if_true, hs, Bool.toNat_true] at ht
  have hevents : s.events.countP (isBreak L) = 0 := by omega
  have hcommands : s.commands.countP (isResume L) = 0 := by omega
  refine ⟨?_,fun n stop hm => ?_,fun how n hm => ?_,?_⟩
  · cases hb : s.blocked L with
    | true => rfl
    | false => simp [hb] at ht
  · exact List.countP_eq_zero.mp hevents _ hm (by simp [isBreak])
  · exact List.countP_eq_zero.mp hcommands _ hm (by simp [isResume])
  · cases hsig : signalled s.backend L with
    | false => rfl
    | true =>
      simp only [hsig, Bool.toNat_true] at ht
      omega

end Tokens

section Steps

variable {s s' : State} {L : LuaState}

theorem settled_backend (h : Settled s) (b : DebugBackend) (hb : Listed b)
    (hsig : ∀ M, signalled b M = true → signalled s.backend M = true) :
    Settled {s with backend := b} := by
  refine ⟨hb,fun M => ?_,h.breaks,h.received,h.resumes,fun M hM => ?_,h.detached,h.last,h.open⟩
  · have ht := h.tokens M
    have hle : (signalled b M).toNat ≤ (signalled s.backend M).toNat := by
      cases hM : signalled b M with
      | false => exact Nat.zero_le _
      | true => rw [hsig M hM]
    simp only [tokens, announced] at ht ⊢
    omega
  · exact h.released M (hM.imp_right (hsig M))

theorem settled_attachState (h : Settled s) (checkstack : Bool)
    (hs : attachState s L checkstack = some s') : Settled s' := by
  cases hs
  refine settled_backend h _ ?_ (fun M hM => ?_)
  · exact listed_step h.listed (c := .attach L (!s.detachEvent) checkstack) rfl
  · rwa [signalled_attachState h.listed] at hM

theorem settled_detachState (h : Settled s) (hs : detachState s L = some s') : Settled s' := by
  unfold detachState at hs
  split at hs
  · cases hs
  · cases hs
    refine settled_backend h _ (listed_step h.listed (c := .detach L) rfl) (fun M hM => ?_)
    rw [signalled_detachState] at hM
    split at hM
    · cases hM
    · exact hM

theorem settled_sendBreak (h : Settled s) (stop : StopEvent) (hs : sendBreak s L stop = some s') :
    Settled s' := by
  unfold sendBreak at hs
  split at hs
  · cases hs
  · rename_i hguard
    simp only [Bool.or_eq_true, not_or, Bool.not_eq_true] at hguard
    obtain ⟨hnews,hresumes,hsig⟩ := running_quiet h hguard.1
    cases hs
    refine ⟨h.listed,fun M => ?_,fun hd M n stop' hm => ?_,fun hd M hM => ?_,fun how M n hm => ?_,
      fun M hM => ?_,fun hd => ?_,h.last,h.open⟩
    · have ht := h.tokens M
      simp only [tokens, announced, List.countP_append, List.countP_singleton, isBreak] at ht ⊢
      by_cases hM : M = L
      · subst hM
        rw [hguard.1, Bool.toNat_false] at ht
        simp only [Function.update_self, Bool.toNat_true, decide_true, if_true]
        split at ht
        · rename_i hd
          rw [if_pos hd]
          omega
        · rename_i hd
          rw [if_neg hd]
          omega
      · have hne : ¬ L = M := Ne.symm hM
        simpa [Function.update_of_ne hM, hne] using ht
    · dsimp only at hm ⊢
      rcases List.mem_append.mp hm with hold | hnew
      · have hM : M ≠ L := fun he => (hnews hd).2 n stop' (he ▸ hold)
        rw [Function.update_of_ne hM]
        exact h.breaks hd M n stop' hold
      · cases List.mem_singleton.mp hnew
        rw [Function.update_self]
    · have hne : M ≠ L := by
        rintro rfl
        rw [(hnews hd).1] at hM
        cases hM
      dsimp only
      rw [Function.update_of_ne hne]
      exact h.received hd M hM
    · have hne : M ≠ L := fun he => hresumes how n (he ▸ hm)
      dsimp only
      rw [Function.update_of_ne hne]
      exact h.resumes how M n hm
    · by_cases hML : M = L
      · subst hML
        dsimp only at hM
        rw [Function.update_self, hsig] at hM
        simp at hM
      · dsimp only at hM ⊢
        rw [Function.update_of_ne hML] at hM ⊢
        have hold := h.released M hM
        split
        · rwa [Function.update_of_ne hML]
        · exact hold
    · obtain ⟨hc,hdata,hle⟩ := h.detached hd
      refine ⟨hc,hdata,fun M => ?_⟩
      dsimp only at hd ⊢
      rw [if_pos hd]
      by_cases hM : M = L
      · subst hM
        rw [Function.update_self, Function.update_self]
      · rw [Function.update_of_ne hM, Function.update_of_ne hM]
        exact hle M

theorem settled_wake (h : Settled s) (hs : wake s L = some s') : Settled s' := by
  unfold wake at hs
  split at hs
  · rename_i hguard
    simp only [Bool.and_eq_true, Bool.or_eq_true] at hguard
    obtain ⟨hb,hwoken⟩ := hguard
    cases hs
    refine ⟨listed_modifyVm h.listed _,fun M => ?_,h.breaks,h.received,h.resumes,fun M hM => ?_,
      h.detached,h.last,h.open⟩
    · have ht := h.tokens M
      simp only [tokens, announced, signalled_resetEvent] at ht ⊢
      by_cases hM : M = L
      · subst hM
        rw [hb, Bool.toNat_true] at ht
        simp only [Function.update_self, Bool.toNat_false, if_true]
        rcases hwoken with hsig | hd
        · rw [hsig, Bool.toNat_true] at ht
          omega
        · obtain ⟨hc,hdata,-⟩ := h.detached hd
          simp [hc, hdata]
      · rw [Function.update_of_ne hM, if_neg hM]
        exact ht
    · by_cases hML : M = L
      · subst hML
        rcases hwoken with hsig | hd
        · exact h.released M (.inr hsig)
        · exact (h.detached hd).2.2 M
      · dsimp only at hM
        rw [Function.update_of_ne hML, signalled_resetEvent, if_neg hML] at hM
        exact h.released M hM
  · cases hs

theorem mem_dropLast_cons {i j : Instruction} {rest : List Instruction}
    (h : j ∈ rest.dropLast) : j ∈ (i::rest).dropLast := by
  cases rest with
  | nil => exact absurd h List.not_mem_nil
  | cons k rest => exact List.mem_cons_of_mem i h

theorem settled_resumed (h : Settled s) {how : Resume} {number : ℕ} {rest : List Instruction}
    (hc : s.commands = .resume how L number :: rest) (hL : (s.backend.getVm L).isNone = false) :
    Settled {s with commands := rest, backend := resume how s.backend L,
                    released := Function.update s.released L (max (s.released L) number)} := by
  have hnumber : number = s.sent L := h.resumes how L number (by rw [hc]; exact List.mem_cons_self)
  refine ⟨listed_resume how h.listed,fun M => ?_,h.breaks,h.received,fun how' M n hm => ?_,
    fun M hM => ?_,fun hd => ?_,fun i hi => ?_,fun hd i hi => ?_⟩
  · have ht := h.tokens M
    simp only [tokens, announced, signalled_resume how hL, hc, List.countP_cons, isResume] at ht ⊢
    by_cases hM : M = L
    · subst hM
      simp only [decide_true, if_true, Bool.toNat_true] at ht ⊢
      omega
    · have hne : ¬ L = M := Ne.symm hM
      simpa [hM, hne] using ht
  · exact h.resumes how' M n (by rw [hc]; exact List.mem_cons_of_mem _ hm)
  · dsimp only at hM ⊢
    rw [signalled_resume how hL] at hM
    by_cases hML : M = L
    · subst hML
      rw [Function.update_self, hnumber]
      exact le_max_right _ _
    · rw [Function.update_of_ne hML]
      rw [if_neg hML] at hM
      exact h.released M hM
  · have hnil := (h.detached hd).1
    rw [hc] at hnil
    cases hnil
  · exact h.last i (by rw [hc]; exact mem_dropLast_cons hi)
  · exact h.open hd i (by rw [hc]; exact List.mem_cons_of_mem _ hi)

/-- Commands and answers that concern no stop. -/
theorem settled_served (h : Settled s) {i : Instruction} {rest : List Instruction} (t : Serving)
    (news : List Event) (hi : ∀ L, isResume L i = false) (hnews : ∀ e ∈ news, ∀ L, isBreak L e = false)
    (hc : s.commands = i :: rest) :
    Settled {s with commands := rest, commandThread := t, events := s.events ++ news} := by
  have hnone (M : LuaState) : news.countP (isBreak M) = 0 :=
    List.countP_eq_zero.mpr (fun e he => Bool.eq_false_iff.mp (hnews e he M))
  refine ⟨h.listed,fun M => ?_,fun hd M n stop hm => ?_,h.received,fun how M n hm => ?_,h.released,
    fun hd => ?_,fun j hj => ?_,fun hd j hj => ?_⟩
  · have ht := h.tokens M
    simp only [tokens, announced, hc, List.countP_cons, hi M, List.countP_append, hnone M] at ht ⊢
    exact ht
  · rcases List.mem_append.mp hm with hold | hnew
    · exact h.breaks hd M n stop hold
    · have hbreak := hnews _ hnew M
      simp [isBreak] at hbreak
  · exact h.resumes how M n (by rw [hc]; exact List.mem_cons_of_mem _ hm)
  · have hnil := (h.detached hd).1
    rw [hc] at hnil
    cases hnil
  · exact h.last j (by rw [hc]; exact mem_dropLast_cons hj)
  · exact h.open hd j (by rw [hc]; exact List.mem_cons_of_mem _ hj)

theorem settled_detach (h : Settled s) {continueRunning : Bool} {rest : List Instruction}
    (hc : s.commands = .detach continueRunning :: rest) :
    Settled {s with commands := rest, backend := detached s.backend continueRunning,
                    detachEvent := true, released := s.sent,
                    commandThread := if continueRunning then .reading else .ended} := by
  have hrest : rest = [] := by
    cases rest with
    | nil => rfl
    | cons i rest =>
      have hlast := h.last (.detach continueRunning) (by rw [hc]; exact List.mem_cons_self)
      cases hlast
  have hdata : s.debugdata = false := by
    rw [← Bool.not_eq_true]
    intro hd
    have hopen := h.open hd (.detach continueRunning) (by rw [hc]; exact List.mem_cons_self)
    cases hopen
  subst hrest
  refine ⟨listed_detached continueRunning h.listed,fun M => ?_,fun hd => ?_,fun hd => ?_,nofun,
    fun M _ => le_refl _,fun _ => ⟨rfl,hdata,fun M => le_refl _⟩,nofun,fun hd => ?_⟩
  · have ht := h.tokens M
    have hle : (signalled (detached s.backend continueRunning) M).toNat ≤
        (signalled s.backend M).toNat := by
      cases hsig : signalled s.backend M with
      | false => rw [signalled_detached continueRunning hsig]
      | true => exact Bool.toNat_le _
    simp only [tokens, announced, hdata, Bool.false_eq_true, if_false, List.countP_nil] at ht ⊢
    omega
  all_goals simp [hdata] at hd

theorem settled_command (h : Settled s) (hs : commandThreadProc s = some s') : Settled s' := by
  unfold commandThreadProc at hs
  split at hs
  · rename_i how L number rest hread hc
    split at hs
    · cases hs
    · rename_i hL
      cases hs
      exact settled_resumed h hc (Bool.eq_false_iff.mpr hL)
  · rename_i c rest hread hc
    split at hs
    · cases hs
      have hserved := settled_served h .reading [.result c false []] (fun _ => rfl)
        (fun e he L => by rw [List.mem_singleton.mp he]; rfl) hc
      rwa [← hread] at hserved
    · cases hs
      have hserved := settled_served h (.evaluating c) [] (fun _ => rfl) nofun hc
      rwa [List.append_nil] at hserved
  · rename_i continueRunning rest hread hc
    cases hs
    exact settled_detach h hc
  · cases hs

theorem settled_evaluated (h : Settled s) (success : Bool) (text : MessagePipe.Bytes)
    (hs : evaluated s success text = some s') : Settled s' := by
  unfold evaluated at hs
  split at hs
  · rename_i c hc
    cases hs
    refine ⟨h.listed,fun M => ?_,fun hd M n stop hm => ?_,h.received,h.resumes,h.released,h.detached,
      h.last,h.open⟩
    · have ht := h.tokens M
      simp only [tokens, announced, List.countP_append, List.countP_singleton, isBreak] at ht ⊢
      exact ht
    · exact h.breaks hd M n stop (by simpa using hm)
  · cases hs

theorem settled_waitForAttach (h : Settled s) (hs : waitForAttach s = some s') : Settled s' := by
  unfold waitForAttach at hs
  split at hs
  · rename_i hguard
    simp only [Bool.and_eq_true, decide_eq_true_eq] at hguard
    obtain ⟨hc,-,hle⟩ := h.detached hguard.1.1
    cases hs
    have hlisted := listed_prepared h.listed
    refine ⟨listed_reset _ _ hlisted,fun M => ?_,fun _ M n stop hm => absurd hm List.not_mem_nil,
      fun _ M hM => Bool.noConfusion hM,h.resumes,fun M _ => hle M,fun hd => Bool.noConfusion hd,
      h.last,fun _ i hi => ?_⟩
    · simp [tokens, announced, hc, signalled_resetEvents hlisted]
    · rw [hc] at hi
      exact absurd hi List.not_mem_nil
  · cases hs

theorem settled_receive (h : Settled s) (hs : receive s = some s') : Settled s' := by
  unfold receive at hs
  split at hs
  · cases hs
  · rename_i hdata
    rw [Bool.not_eq_true', Bool.not_eq_false] at hdata
    split at hs
    · cases hs
    · rename_i L number stop rest he
      cases hs
      refine ⟨h.listed,fun M => ?_,fun hd M n stop' hm => ?_,fun hd M hM => ?_,h.resumes,h.released,
        h.detached,h.last,h.open⟩
      · have ht := h.tokens M
        simp only [tokens, announced, hdata, if_true, he, List.countP_cons, isBreak] at ht ⊢
        by_cases hM : M = L
        · subst hM
          simp only [Function.update_self, Bool.toNat_true, decide_true, if_true] at ht ⊢
          omega
        · have hne : ¬ L = M := Ne.symm hM
          simpa [Function.update_of_ne hM, hne] using ht
      · exact h.breaks hd M n stop' (by rw [he]; exact List.mem_cons_of_mem _ hm)
      · dsimp only at hM ⊢
        by_cases hML : M = L
        · subst hML
          rw [Function.update_self]
          exact h.breaks hd M number stop (by rw [he]; exact List.mem_cons_self)
        · rw [Function.update_of_ne hML] at hM ⊢
          exact h.received hd M hM
    · rename_i c success text rest he
      cases hs
      refine ⟨h.listed,fun M => ?_,fun hd M n stop' hm => ?_,h.received,h.resumes,h.released,
        h.detached,h.last,h.open⟩
      · have ht := h.tokens M
        simp only [tokens, announced, he, List.countP_cons, isBreak] at ht ⊢
        exact ht
      · exact h.breaks hd M n stop' (by rw [he]; exact List.mem_cons_of_mem _ hm)

theorem settled_resume (h : Settled s) (how : Resume)
    (hk : s.debugdata = true → s.stopped L = true) : Settled (writeResume s how L) := by
  unfold writeResume
  split
  · exact h
  · rename_i hdata
    rw [Bool.not_eq_true', Bool.not_eq_false] at hdata
    have hopen := h.open hdata
    refine ⟨h.listed,fun M => ?_,h.breaks,fun hd M hM => ?_,fun how' M n hm => ?_,h.released,
      fun hd => ?_,fun i hi => ?_,fun hd i hi => ?_⟩
    · have ht := h.tokens M
      simp only [tokens, announced, write, hdata, if_true, List.countP_append, List.countP_singleton,
        isResume] at ht ⊢
      by_cases hM : M = L
      · subst hM
        rw [hk hdata] at ht
        simp only [Function.update_self, Bool.toNat_false, Bool.toNat_true, decide_true,
          if_true] at ht ⊢
        omega
      · have hne : ¬ L = M := Ne.symm hM
        simpa [Function.update_of_ne hM, hne] using ht
    · have hML : M ≠ L := by
        rintro rfl
        simp at hM
      dsimp only at hM
      rw [Function.update_of_ne hML] at hM
      exact h.received hd M hM
    · rcases List.mem_append.mp hm with hold | hnew
      · exact h.resumes how' M n hold
      · cases List.mem_singleton.mp hnew
        exact h.received hdata L (hk hdata)
    · rw [(h.detached hd).2.1] at hdata
      cases hdata
    · rw [write, List.dropLast_concat] at hi
      exact hopen i hi
    · rcases List.mem_append.mp hi with hold | hnew
      · exact hopen i hold
      · rw [List.mem_singleton.mp hnew]
        rfl

theorem settled_evaluate (h : Settled s) (c : Command) : Settled (writeEvaluate s c) := by
  unfold writeEvaluate
  split
  · exact h
  · rename_i hdata
    rw [Bool.not_eq_true', Bool.not_eq_false] at hdata
    have hopen := h.open hdata
    refine ⟨h.listed,fun M => ?_,h.breaks,h.received,fun how M n hm => ?_,h.released,
      fun hd => ?_,fun i hi => ?_,fun hd i hi => ?_⟩
    · have ht := h.tokens M
      simp only [tokens, announced, write, List.countP_append, List.countP_singleton,
        isResume] at ht ⊢
      exact ht
    · exact h.resumes how M n (by simpa [write] using hm)
    · rw [(h.detached hd).2.1] at hdata
      cases hdata
    · rw [write, List.dropLast_concat] at hi
      exact hopen i hi
    · rcases List.mem_append.mp hi with hold | hnew
      · exact hopen i hold
      · rw [List.mem_singleton.mp hnew]
        rfl

theorem settled_stop (h : Settled s) (continueRunning : Bool) : Settled (stop s continueRunning) := by
  unfold stop
  split
  · exact h
  · rename_i hdata
    rw [Bool.not_eq_true', Bool.not_eq_false] at hdata
    refine ⟨h.listed,fun M => ?_,nofun,nofun,fun how M n hm => ?_,h.released,
      fun hd => ?_,fun i hi => ?_,nofun⟩
    · have ht := h.tokens M
      simp only [tokens, announced, write, Bool.false_eq_true, if_false, List.countP_append,
        List.countP_singleton, isResume] at ht ⊢
      omega
    · exact h.resumes how M n (by simpa [write] using hm)
    · rw [(h.detached hd).2.1] at hdata
      cases hdata
    · rw [write, List.dropLast_concat] at hi
      exact h.open hdata i hi

end Steps

theorem settled_step (s : State) (l : Label) (s' : State) (h : Settled s) (hs : Step s l s')
    (hk : Known s l) : Settled s' := by
  cases l with
  | attachState L checkstack => exact settled_attachState h checkstack hs
  | detachState L => exact settled_detachState h hs
  | sendBreak L stop => exact settled_sendBreak h stop hs
  | wake L => exact settled_wake h hs
  | command => exact settled_command h hs
  | evaluated success text => exact settled_evaluated h success text hs
  | waitForAttach => exact settled_waitForAttach h hs
  | receive => exact settled_receive h hs
  | resume how L =>
    cases hs
    exact settled_resume h how hk
  | evaluate c =>
    cases hs
    exact settled_evaluate h c
  | stop continueRunning =>
    cases hs
    exact settled_stop h continueRunning

theorem settled_initial : Settled initial :=
  ⟨⟨List.nodup_nil,rfl⟩,fun _ => le_refl _,fun _ _ _ _ hm => absurd hm List.not_mem_nil,
    fun _ _ => Bool.noConfusion,fun _ _ _ hm => absurd hm List.not_mem_nil,fun _ _ => le_refl _,
    fun hd => Bool.noConfusion hd,List.forall_mem_nil _,
    fun _ _ hm => absurd hm List.not_mem_nil⟩

/-- Every stop lasts until its own resume command in a run in which the adapter
resumes only the threads it knows to be stopped. -/
theorem answered_along (labels : List Label) (h : Meets Step Known initial labels) :
    Along Step Answered initial labels :=
  along_of_meets answered_of_settled settled_step initial labels settled_initial h

def continued : List Label :=
  [.attachState 1 true,.sendBreak 1 (breakAt 1 4),.receive,.resume .continue 1]

theorem answered_along_continued :
    Along Step Answered initial (continued ++ [.command,.wake 1]) := by
  refine answered_along (continued ++ [.command,.wake 1]) ?_
  rintro _ hattach
  cases hattach
  refine ⟨trivial,?_⟩
  rintro _ hbreak
  cases hbreak
  refine ⟨trivial,?_⟩
  rintro _ hreceive
  cases hreceive
  refine ⟨trivial,?_⟩
  rintro _ hresume
  cases hresume
  refine ⟨fun _ => rfl,?_⟩
  rintro _ hcommand
  cases hcommand
  refine ⟨trivial,?_⟩
  rintro _ -
  exact ⟨trivial,trivial⟩

/-- The request is repeated before the event of the first one is set. -/
def repeated : List Label :=
  continued ++ [.resume .continue 1,.command,.wake 1,.command,.sendBreak 1 (breakAt 1 4),.wake 1]

theorem repeated_not_answered : ¬ Along Step Answered initial repeated := by
  intro h
  have hend := along_start ((((((((((h.2 _ rfl).2 _ rfl).2 _ rfl).2 _ rfl).2 _ rfl).2 _ rfl).2 _ rfl).2
    _ rfl).2 _ rfl).2 _ rfl)
  exact absurd (hend 1).1 (by decide)

end Vecoda.StaleResume
