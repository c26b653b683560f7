import Vecoda.BreakLock
import Vecoda.Transitions

/-!
# The command thread and the stops

m_breakLock is held by the one thread that is stopped in ErrorHandler, sends a
load error or clears its cache. BreakFromScript waits without it, so that an
error on the command thread is kept from a stop only while another thread is in
one of those places. A stop of the command thread never ends by itself.
-/

set_option autoImplicit false

namespace Vecoda.CommandThread
open MessagePipe (Bytes)
open Ownership BreakLock Transitions

section Steps

variable {s s' : State} {t : Thread}

/-- In one of the stops, from the decision on. -/
def inStop : Location → Bool
  | .entering _ _ => true
  | .sending _ _ => true
  | .waiting _ _ => true
  | .clearing _ _ => true
  | _ => false

def stops (s : State) (t : Thread) : Act → Bool
  | .hook _ stop => stop
  | .load _ _ => !s.detachEvent
  | .tryEnter => canEnter s.breakLock t
  | _ => false

/-- What an act of a thread can do: it passes along the two locks, and sets no event. Outside of the
stops it enters one if it is an act that does, and a waiting thread has been woken. -/
structure Moves (s : State) (t : Thread) (a : Act) (s' : State) : Prop where
  breakLock : Passes Location.holdsBreakLock s.breakLock s.location t s'.breakLock s'.location
  criticalSection : Passes Location.holdsCriticalSection s.criticalSection s.location t
    s'.criticalSection s'.location
  detachEvent : s'.detachEvent = s.detachEvent
  breakEvent : ∀ L, s.breakEvent L = false → s'.breakEvent L = false
  enters : inStop (s.location t) = false → inStop (s'.location t) = stops s t a
  woken : ∀ stop L, s.location t = .waiting stop L → s.breakEvent L = true ∨ s.detachEvent = true

variable {a : Act}

theorem not_waiting {l : Location} (h : inStop l = false) {stop : Stop} {L : ℕ} : l ≠ .waiting stop L := by
  rintro rfl
  cases h

@[simp] theorem moveTo_location (l : Location) : (s.moveTo t l).location t = l := Function.update_self ..

/-- The thread stays where it is, outside of the stops. -/
theorem moves_stay (hin : inStop (s.location t) = false) (hs : stops s t a = false)
    (hl : s'.location = s.location) (hb : s'.breakLock = s.breakLock)
    (hc : s'.criticalSection = s.criticalSection) (hd : s'.detachEvent = s.detachEvent)
    (he : ∀ L, s.breakEvent L = false → s'.breakEvent L = false) : Moves s t a s' :=
  ⟨passes_stay hl hb,passes_stay hl hc,hd,he,fun _ => by rw [hl, hin, hs],
    fun _ _ hw => absurd hw (not_waiting hin)⟩

/-- It goes from outside of the stops to another place, and takes no lock. -/
theorem moves_from (l : Location) (hin : inStop (s.location t) = false) (hs : inStop l = stops s t a)
    (hb : l.holdsBreakLock = (s.location t).holdsBreakLock)
    (hc : l.holdsCriticalSection = (s.location t).holdsCriticalSection) : Moves s t a (s.moveTo t l) :=
  ⟨.keep l hb,.keep l hc,rfl,fun _ => id,fun _ => by rw [moveTo_location, hs],
    fun _ _ hw => absurd hw (not_waiting hin)⟩

/-- It was inside of a stop already. -/
theorem moves_inside (hin : inStop (s.location t) = true)
    (hb : Passes Location.holdsBreakLock s.breakLock s.location t s'.breakLock s'.location)
    (hc : Passes Location.holdsCriticalSection s.criticalSection s.location t s'.criticalSection
      s'.location)
    (hd : s'.detachEvent = s.detachEvent) (he : ∀ L, s.breakEvent L = false → s'.breakEvent L = false)
    (hw : ∀ stop L, s.location t = .waiting stop L → s.breakEvent L = true ∨ s.detachEvent = true) :
    Moves s t a s' :=
  ⟨hb,hc,hd,he,fun h => (by cases hin.symm.trans h),hw⟩

theorem reset_event (events : ℕ → Bool) (L M : ℕ) (h : events M = false) :
    Function.update events L false M = false := by
  by_cases hM : M = L
  · rw [hM, Function.update_self]
  · rwa [Function.update_of_ne hM]

theorem runsLua_location (h : s.runsLua t = true) : s.location t = .running := by
  simp only [State.runsLua, Bool.and_eq_true, decide_eq_true_eq] at h
  exact h.1

/-- `AttachState` may attach, and changes nothing else. -/
theorem attachState_spec {L : ℕ} (h : s.attachState t L = some s') :
    ∃ vms events, s' = {s with stateToVm := vms, breakEvent := events} ∧
      ∀ M, s.breakEvent M = false → events M = false := by
  unfold State.attachState at h
  split at h
  · cases h
    exact ⟨_,_,rfl,fun _ => id⟩
  · split at h
    · cases h
    · split at h
      · cases h
        exact ⟨_,_,rfl,fun _ => id⟩
      · cases h
        exact ⟨_,_,rfl,reset_event s.breakEvent L⟩

theorem moves_attached {L : ℕ} {handler : State → Bool} (hruns : s.runsLua t = true)
    (hs : stops s t a = false)
    (h : (s.attachState t L).map (fun s => push t s (handler s)) = some s') : Moves s t a s' := by
  obtain ⟨u,hu,rfl⟩ := Option.map_eq_some_iff.mp h
  obtain ⟨vms,events,rfl,he⟩ := attachState_spec hu
  exact moves_stay (by rw [runsLua_location hruns]; rfl) hs rfl rfl rfl rfl he

theorem moves_luaCall {L : ℕ} {c : CallSite} (h : luaCall t s L c = some s') :
    Moves s t (.luaCall L c) s' := by
  unfold luaCall at h
  split at h
  · cases h
  · rename_i hruns
    exact moves_attached (by simpa using hruns) rfl h

theorem moves_luaPcall {L : ℕ} {c : CallSite} (h : luaPcall t s L c = some s') :
    Moves s t (.luaPcall L c) s' := by
  unfold luaPcall at h
  split at h
  · cases h
  · rename_i hruns
    exact moves_attached (by simpa using hruns) rfl h

theorem moves_luaPcallk530 {L : ℕ} {c : CallSite} (h : luaPcallk530 t s L c = some s') :
    Moves s t (.luaPcallk530 L c) s' := by
  unfold luaPcallk530 at h
  split at h
  · cases h
  · rename_i hruns
    exact moves_attached (by simpa using hruns) rfl h

theorem moves_returns (h : returns t s = some s') : Moves s t .returns s' := by
  unfold returns at h
  split at h
  · cases h
  · split at h
    · cases h
    · rename_i hruns
      have hl := runsLua_location (by simpa using hruns)
      cases h
      exact moves_stay (by rw [hl]; rfl) rfl rfl rfl rfl rfl (fun _ => id)

theorem moves_raises {L : ℕ} {message : Bytes} (h : raises t s L message = some s') :
    Moves s t (.raises L message) s' := by
  unfold raises at h
  split at h
  · cases h
  · rename_i hruns
    have hl := runsLua_location (by simpa using hruns)
    have hin : inStop (s.location t) = false := by rw [hl]; rfl
    split at h
    · cases h
    · cases h
      exact moves_stay hin rfl rfl rfl rfl rfl (fun _ => id)
    · cases h
      split
      · exact moves_stay hin rfl rfl rfl rfl rfl (fun _ => id)
      · exact ⟨.keep (Location.trying L) (by rw [hl]; rfl),.keep (Location.trying L) (by rw [hl]; rfl),rfl,
          fun _ => id,fun _ => by rw [moveTo_location]; rfl,fun _ _ hw => absurd hw (not_waiting hin)⟩

theorem moves_hook {L : ℕ} {stop : Bool} (h : hook t s L stop = some s') : Moves s t (.hook L stop) s' := by
  unfold hook at h
  split at h
  · cases h
  · rename_i hruns
    have hl : s.location t = .running := runsLua_location (by
      simp only [Bool.or_eq_true, not_or, Bool.not_eq_true, Bool.not_eq_false'] at hruns
      exact hruns.1)
    have hin : inStop (s.location t) = false := by rw [hl]; rfl
    obtain ⟨u,hu,h⟩ := Option.bind_eq_some_iff.mp h
    obtain ⟨vms,events,rfl,he⟩ := attachState_spec hu
    split at h
    · cases h
    · cases h
      cases stop with
      | true =>
        exact ⟨.keep (Location.sending .breakFromScript L) (by rw [hl]; rfl),
          .keep (Location.sending .breakFromScript L) (by rw [hl]; rfl),rfl,he,
          fun _ => by rw [if_pos rfl, moveTo_location]; rfl,fun _ _ hw => absurd hw (not_waiting hin)⟩
      | false => exact moves_stay hin rfl rfl rfl rfl rfl he

theorem moves_load {L : ℕ} {registered : Bool} (h : load t s L registered = some s') :
    Moves s t (.load L registered) s' := by
  unfold load at h
  split at h
  · cases h
  · rename_i hruns
    have hl := runsLua_location (by simpa using hruns)
    have hin : inStop (s.location t) = false := by rw [hl]; rfl
    split at h
    · rename_i hdetached
      cases h
      exact moves_stay hin (by rw [stops, hdetached]; rfl) rfl rfl rfl rfl (fun _ => id)
    · rename_i hattached
      split at h
      · cases h
      · rename_i hfree
        cases h
        exact ⟨.keep _ (by rw [hl]; rfl),.enter _ (by simpa using hfree) rfl,rfl,fun _ => id,
          fun _ => by rw [moveTo_location, stops, Bool.eq_false_iff.mpr hattached]; rfl,
          fun _ _ hw => absurd hw (not_waiting hin)⟩

theorem moves_register (h : register t s = some s') : Moves s t .register s' := by
  unfold register at h
  split at h
  · cases h
  · rename_i hruns
    have hl : s.location t = .running := runsLua_location (by
      simp only [Bool.or_eq_true, not_or, Bool.not_eq_true, Bool.not_eq_false'] at hruns
      exact hruns.1)
    cases h
    exact moves_from _ (by rw [hl]; rfl) rfl (by rw [hl]; rfl) (by rw [hl]; rfl)

theorem moves_detachState {L : ℕ} (h : detachState t s L = some s') : Moves s t (.detachState L) s' := by
  unfold detachState at h
  split at h
  · cases h
  · rename_i hruns
    have hl : s.location t = .running := runsLua_location (by
      simp only [Bool.or_eq_true, not_or, Bool.not_eq_true, Bool.not_eq_false'] at hruns
      exact hruns.1)
    cases h
    exact moves_stay (by rw [hl]; rfl) rfl rfl rfl rfl rfl (reset_event s.breakEvent L)

theorem moves_tryEnter (h : tryEnter t s = some s') : Moves s t .tryEnter s' := by
  unfold tryEnter at h
  split at h
  · rename_i L hl
    have hin : inStop (s.location t) = false := by rw [hl]; rfl
    split at h
    · rename_i hfree
      cases h
      exact ⟨.enter _ hfree rfl,.keep _ (by rw [hl]; rfl),rfl,fun _ => id,
        fun _ => by rw [moveTo_location, stops, hfree]; rfl,fun _ _ hw => absurd hw (not_waiting hin)⟩
    · rename_i htaken
      cases h
      exact moves_from _ hin (by rw [stops, Bool.eq_false_iff.mpr htaken]; rfl) (by rw [hl]; rfl)
        (by rw [hl]; rfl)
  · cases h

theorem moves_enter (h : enter t s = some s') : Moves s t .enter s' := by
  unfold enter at h
  split at h
  · rename_i stop L hl
    have hw (stop' : Stop) (M : ℕ) (hw : s.location t = .waiting stop' M) :
        s.breakEvent M = true ∨ s.detachEvent = true := by cases hl.symm.trans hw
    split at h
    · cases h
    · rename_i hfree
      have hfree : canEnter s.breakLock t = true := by simpa using hfree
      have hin : inStop (s.location t) = true := by rw [hl]; rfl
      cases stop with
      | breakFromScript =>
        cases h
        exact moves_inside hin (.enter _ hfree rfl) (.keep _ (by rw [hl]; rfl)) rfl (fun _ => id) hw
      | errorHandler =>
        cases h
        exact moves_inside hin (.enter _ hfree rfl) (.keep _ (by rw [hl]; rfl)) rfl (fun _ => id) hw
      | postLoadScript registered =>
        cases h
        exact moves_inside hin (.enter _ hfree rfl) (.keep _ (by rw [hl]; rfl)) rfl (fun _ => id) hw
  · cases h

theorem moves_send (h : send t s = some s') : Moves s t .send s' := by
  unfold send at h
  split at h
  · rename_i stop L hl
    have hw (stop' : Stop) (M : ℕ) (hw : s.location t = .waiting stop' M) :
        s.breakEvent M = true ∨ s.detachEvent = true := by cases hl.symm.trans hw
    have hin : inStop (s.location t) = true := by rw [hl]; rfl
    split at h
    · cases h
    · cases stop with
      | breakFromScript =>
        cases h
        exact moves_inside hin (.keep _ (by rw [hl]; rfl)) (.keep _ (by rw [hl]; rfl)) rfl (fun _ => id) hw
      | errorHandler =>
        cases h
        refine moves_inside hin (.keep _ ?_) (.keep _ ?_) rfl (fun _ => id) hw <;> rw [hl] <;> split <;> rfl
      | postLoadScript registered =>
        dsimp only at h
        split at h
        · cases h
        · cases h
          exact moves_inside hin (.exit _ (by rw [hl]; rfl) rfl) (.exit _ (by rw [hl]; rfl) rfl) rfl
            (fun _ => id) hw
  · cases h

theorem moves_wake (h : wake t s = some s') : Moves s t .wake s' := by
  unfold wake at h
  split at h
  · rename_i stop L hl
    split at h
    · cases h
    · rename_i hset
      have hw (stop' : Stop) (M : ℕ) (hw : s.location t = .waiting stop' M) :
          s.breakEvent M = true ∨ s.detachEvent = true := by
        cases hl.symm.trans hw
        simpa only [Bool.and_eq_true, Bool.not_eq_true', not_and_or, Bool.not_eq_false] using hset
      have hin : inStop (s.location t) = true := by rw [hl]; rfl
      have he := reset_event s.breakEvent L
      cases stop <;> cases h <;>
        exact moves_inside hin (.keep _ (by rw [hl]; rfl)) (.keep _ (by rw [hl]; rfl)) rfl he hw
  · cases h

theorem moves_clear (h : clear t s = some s') : Moves s t .clear s' := by
  unfold clear at h
  split at h
  · rename_i stop L hl
    have hw (stop' : Stop) (M : ℕ) (hw : s.location t = .waiting stop' M) :
        s.breakEvent M = true ∨ s.detachEvent = true := by cases hl.symm.trans hw
    have hin : inStop (s.location t) = true := by rw [hl]; rfl
    cases stop with
    | postLoadScript registered =>
      cases h
      refine moves_inside hin (.keep _ ?_) (.keep _ ?_) rfl (fun _ => id) hw <;> rw [hl] <;>
        cases registered <;> rfl
    | breakFromScript =>
      cases h
      exact moves_inside hin (.exit _ (by rw [hl]; rfl) rfl) (.keep _ (by rw [hl]; rfl)) rfl (fun _ => id) hw
    | errorHandler =>
      cases h
      exact moves_inside hin (.exit _ (by rw [hl]; rfl) rfl) (.keep _ (by rw [hl]; rfl)) rfl (fun _ => id) hw
  · cases h

theorem moves_loaded (h : loaded t s = some s') : Moves s t .loaded s' := by
  unfold loaded at h
  split at h
  · rename_i hl
    have hin : inStop (s.location t) = false := by rw [hl]; rfl
    split at h
    · cases h
    · cases h
      exact ⟨.keep _ (by rw [hl]; rfl),.keep _ (by rw [hl]; rfl),rfl,fun _ => id,
        fun _ => by rw [moveTo_location]; rfl,fun _ _ hw => absurd hw (not_waiting hin)⟩
  · cases h

theorem moves_act (h : act t s a = some s') : Moves s t a s' := by
  cases a with
  | luaCall L c => exact moves_luaCall h
  | luaPcall L c => exact moves_luaPcall h
  | luaPcallk530 L c => exact moves_luaPcallk530 h
  | returns => exact moves_returns h
  | raises L message => exact moves_raises h
  | hook L stop => exact moves_hook h
  | load L registered => exact moves_load h
  | register => exact moves_register h
  | detachState L => exact moves_detachState h
  | tryEnter => exact moves_tryEnter h
  | enter => exact moves_enter h
  | send => exact moves_send h
  | wake => exact moves_wake h
  | clear => exact moves_clear h
  | loaded => exact moves_loaded h

theorem reads_location (h : s.readsCommands = true) : s.location .command = .running := by
  simp only [State.readsCommands, Bool.and_eq_true, decide_eq_true_eq] at h
  exact h.1

/-- What the command thread can do besides: the locks stay, and so do the
locations, unless it ends. -/
structure Settles (s s' : State) : Prop where
  breakLock : s'.breakLock = s.breakLock
  criticalSection : s'.criticalSection = s.criticalSection
  location : s'.location = s.location ∨
    s.location .command = .running ∧ s'.location = Function.update s.location .command .ended

theorem settles_command {c : Command} (h : commandThreadProc s c = some s') : Settles s s' := by
  unfold commandThreadProc at h
  split at h
  · cases h
  · rename_i hreads
    cases c with
    | resume L =>
      dsimp only [resume] at h
      split at h <;> cases h
      exact ⟨rfl,rfl,.inl rfl⟩
    | evaluate L =>
      dsimp only [evaluate] at h
      split at h
      · cases h
        exact ⟨rfl,rfl,.inl rfl⟩
      · split at h <;> cases h
        exact ⟨rfl,rfl,.inl rfl⟩
    | loadDone =>
      cases h
      exact ⟨rfl,rfl,.inl rfl⟩
    | ignoreException message =>
      cases h
      exact ⟨rfl,rfl,.inl rfl⟩
    | detach continueRunning =>
      have hl := reads_location (by simpa using hreads)
      dsimp only [detach] at h
      split at h
      · cases h
      · split at h <;> cases h
        · exact ⟨rfl,rfl,.inl rfl⟩
        · exact ⟨rfl,rfl,.inr ⟨hl,rfl⟩⟩
    | reattach =>
      dsimp only [reattach] at h
      split at h <;> cases h
      exact ⟨rfl,rfl,.inl rfl⟩

theorem settles_evaluated (h : evaluated s = some s') : Settles s s' := by
  unfold evaluated at h
  split at h <;> cases h
  exact ⟨rfl,rfl,.inl rfl⟩

end Steps

/-- Both locks are owned by the threads inside their regions. -/
structure Locked (s : State) : Prop where
  breakLock : Owned Location.holdsBreakLock s.breakLock s.location
  criticalSection : Owned Location.holdsCriticalSection s.criticalSection s.location

theorem locked_initial : Locked initial := ⟨fun t => by simp [initial, Location.holdsBreakLock],
  fun t => by simp [initial, Location.holdsCriticalSection]⟩

theorem locked_moves {s s' : State} {t : Thread} {a : Act} (hs : Locked s) (h : Moves s t a s') : Locked s' :=
  ⟨owned_passes hs.breakLock h.breakLock,owned_passes hs.criticalSection h.criticalSection⟩

theorem locked_settles {s s' : State} (hs : Locked s) (h : Settles s s') : Locked s' := by
  obtain ⟨hb,hc,hl | ⟨hrunning,hl⟩⟩ := h
  · exact ⟨by rw [hb, hl]; exact hs.breakLock,by rw [hc, hl]; exact hs.criticalSection⟩
  · refine ⟨?_,?_⟩
    · rw [hb, hl]
      exact owned_passes hs.breakLock (.keep Location.ended (by rw [hrunning]; rfl))
    · rw [hc, hl]
      exact owned_passes hs.criticalSection (.keep Location.ended (by rw [hrunning]; rfl))

theorem locked_step {s s' : State} {l : Label} (hs : Locked s) (h : Step s l s') : Locked s' := by
  cases l with
  | act t a => exact locked_moves hs (moves_act h)
  | command c => exact locked_settles hs (settles_command h)
  | evaluated => exact locked_settles hs (settles_evaluated h)

/-- What keeps the command thread out of a stop: its hooks do not break, no script
fails to load while the debugger is attached, and its error handler tries the
lock only while another thread is inside the lock's region. -/
def Guarded (s : State) : Label → Prop
  | .act .command (.hook _ stop) => stop = false
  | .act .command (.load _ _) => s.detachEvent = true
  | .act .command .tryEnter => ∃ id, (s.location (.lua id)).holdsBreakLock = true
  | _ => True

def StopFree (s : State) : Prop := inStop (s.location .command) = false

def Waits (s : State) (t : Thread) : Prop := ∃ stop L, s.location t = .waiting stop L

theorem stopFree_waits {s : State} (h : StopFree s) : ¬ Waits s .command := by
  rintro ⟨stop,L,hl⟩
  rw [StopFree, hl] at h
  cases h

theorem holds_inStop {l : Location} (h : inStop l = false) : l.holdsBreakLock = false := by
  cases l <;> first | rfl | cases h

/-- The lock is taken for the command thread if a Lua thread is inside its region. -/
theorem taken_lua_iff {s : State} (hs : Locked s) (h0 : StopFree s) :
    canEnter s.breakLock .command = false ↔ ∃ id, (s.location (.lua id)).holdsBreakLock = true := by
  rw [taken_iff hs.breakLock (holds_inStop h0)]
  constructor
  · rintro ⟨u,hu,hl⟩
    cases u with
    | command => exact absurd rfl hu
    | lua id => exact ⟨id,hl⟩
  · rintro ⟨id,hl⟩
    exact ⟨.lua id,nofun,hl⟩

theorem stopFree_settles {s s' : State} (h0 : StopFree s) (h : Settles s s') : StopFree s' := by
  obtain ⟨-,-,hl | ⟨-,hl⟩⟩ := h <;> rw [StopFree, hl]
  · exact h0
  · rw [Function.update_self]
    rfl

theorem stopFree_step_iff {s s' : State} {l : Label} (hs : Locked s) (h0 : StopFree s)
    (h : Step s l s') : StopFree s' ↔ Guarded s l := by
  cases l with
  | act t a =>
    cases t with
    | lua id =>
      have hl : s'.location .command = s.location .command :=
        passes_other (moves_act h).breakLock nofun
      rw [StopFree, hl]
      exact iff_of_true h0 trivial
    | command =>
      rw [StopFree, (moves_act h).enters h0]
      cases a with
      | hook L stop => exact Iff.rfl
      | load L registered => simp [stops, Guarded]
      | tryEnter => exact taken_lua_iff hs h0
      | _ => exact iff_of_true rfl trivial
  | command c => exact iff_of_true (stopFree_settles h0 (settles_command h)) trivial
  | evaluated => exact iff_of_true (stopFree_settles h0 (settles_evaluated h)) trivial

/-- The command thread stays out of the stops along a run exactly if every step
of it is guarded, and then it never waits in WaitForContinue. -/
theorem guarded_along (labels : List Label) :
    (Along Step StopFree initial labels ↔ Meets Step Guarded initial labels) ∧
      (Meets Step Guarded initial labels → Along Step (fun s => ¬ Waits s .command) initial labels) := by
  have hgood : ∀ s l s', Locked s ∧ StopFree s → Step s l s' → Guarded s l → Locked s' ∧ StopFree s' :=
    fun s l s' hs hstep hguard =>
      ⟨locked_step hs.1 hstep,(stopFree_step_iff hs.1 hs.2 hstep).mpr hguard⟩
  refine ⟨along_iff_meets (fun _ hs => hs.2) hgood ?_ initial labels ⟨locked_initial,rfl⟩,
    along_of_meets (fun _ hs => stopFree_waits hs.2) hgood initial labels ⟨locked_initial,rfl⟩⟩
  exact fun s l s' hs hstep hguard hfree => hguard ((stopFree_step_iff hs.1 hs.2 hstep).mp hfree)

/-- The command thread waits for an event that only itself would set. -/
structure Stuck (stop : Stop) (L : ℕ) (s : State) : Prop where
  location : s.location .command = .waiting stop L
  breakEvent : s.breakEvent L = false
  detachEvent : s.detachEvent = false

theorem stuck_step {stop : Stop} {L : ℕ} {s s' : State} {l : Label} (hs : Stuck stop L s)
    (h : Step s l s') : Stuck stop L s' := by
  cases l with
  | act t a =>
    cases t with
    | command =>
      rcases (moves_act h).woken stop L hs.location with hset | hset
      · rw [hs.breakEvent] at hset
        cases hset
      · rw [hs.detachEvent] at hset
        cases hset
    | lua id =>
      have hmoves := moves_act h
      have hl : s'.location .command = s.location .command := passes_other hmoves.breakLock nofun
      exact ⟨hl.trans hs.location,hmoves.breakEvent L hs.breakEvent,
        hmoves.detachEvent.trans hs.detachEvent⟩
  | command c =>
    simp [Step, step, commandThreadProc, State.readsCommands, hs.location] at h
  | evaluated =>
    simp [Step, step, evaluated, hs.location] at h

/-- Once the command thread waits it does so for ever, whatever the Lua threads do. -/
theorem stuck_runs {stop : Stop} {L : ℕ} {s s' : State} {labels : List Label}
    (h : Runs Step s labels s') (hs : Stuck stop L s) : Stuck stop L s' :=
  runs_invariant (I := Stuck stop L) (fun _ _ _ hs hstep => stuck_step hs hstep) h hs

/-- Thread 0 breaks in virtual machine 1; an expression evaluated there calls
back into Lua through lua_call, and the callback raises. -/
def callbackRaises : List Label :=
  [.act (.lua 0) (.luaCall 1 ⟨false,false,true⟩),.act (.lua 0) (.hook 1 true),.act (.lua 0) .send,
   .command (.evaluate 1),.act .command (.luaCall 1 ⟨false,false,true⟩),
   .act .command (.raises 1 []),.act .command .tryEnter,.act .command .send]

theorem callbackRaises_runs : (callbackRaises.foldlM step initial).isSome = true := rfl

/-- The command thread waits, and does so for ever after. -/
theorem callbackRaises_waits :
    ¬ Along Step (fun s => ¬ Waits s .command) initial callbackRaises ∧
      ∀ labels s, Runs Step ((callbackRaises.foldlM step initial).get callbackRaises_runs) labels s →
        Waits s .command := by
  refine ⟨fun h => ?_,fun labels s hs => ?_⟩
  · have hstopped := ((h.2 _ rfl).2 _ rfl).2 _ rfl
    have hend := along_start (((((hstopped.2 _ rfl).2 _ rfl).2 _ rfl).2 _ rfl).2 _ rfl)
    exact hend ⟨.errorHandler,1,rfl⟩
  · exact ⟨.errorHandler,1,(stuck_runs hs ⟨rfl,rfl,rfl⟩).location⟩

end Vecoda.CommandThread
