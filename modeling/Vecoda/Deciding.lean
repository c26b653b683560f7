import Vecoda.BreakDecision
import Vecoda.Routing

/-!
# The handlers of a break, seen from its machine

Whatever a breakpoint asks for on the way, its handlers speak of one virtual
machine only: they continue it, or store its stack and publish its stop, or
evaluate in it and leave the rest to a callback.
-/

set_option autoImplicit false

namespace Vecoda.Deciding
open MessagePipe (Bytes)
open LuaText HandleBreak Routing
open Requests (enact)

def effects (hits : ℕ) : Proc → List Effect
  | .done => []
  | .raise => []
  | .emit e k => e :: effects hits k
  | .setStacks _ k => effects hits k
  | .hit k => effects hits (k (hits+1))
  | .evaluate _ _ _ _ => []

def Names (L threadId : ℕ) : Prop := threadId % 4 = 0 → threadId = L

/-- What decides a break of `L`: it continues or publishes `L` at its end. -/
def Decides (L : ℕ) : Proc → Prop
  | .done => True
  | .raise => True
  | .emit (.output _ _) k => Decides L k
  | .emit (.continue nvm) k => nvm = L ∧ k = .done
  | .emit _ _ => False
  | .setStacks _ k => ∃ reason bp, k = .emit (.stopped reason L bp) (.emit .emitStopped .done)
  | .hit k => ∀ n, Decides L (k n)
  | .evaluate _ threadId _ callback => Names L threadId ∧
      ∀ hit success root, Decides L (callback hit success root)

section Decides

variable {L : ℕ}

/-- The handle and the position share bits, which the alignment keeps apart. -/
theorem names_frame (halign : L % 4 = 0) (hlt : L < 2^59) {position : ℕ}
    (hp : position < 128) :
    Names L (threadIdOf (frameId L position)) := by
  obtain ⟨q,rfl⟩ := Nat.dvd_of_mod_eq_zero halign
  have hbound : (4*q) <<< 5 % 2^64 = (4*q) <<< 5 := by
    apply Nat.mod_eq_of_lt
    rw [Nat.shiftLeft_eq]
    omega
  have hpos : position >>> 5 < 2^2 := by
    rw [Nat.shiftRight_eq_div_pow]
    omega
  intro hthread
  rw [threadIdOf, frameId, hbound, Nat.shiftRight_or_distrib, Nat.shiftLeft_shiftRight,
    show 4*q = 2^2*q from rfl, ← Nat.two_pow_add_eq_or_of_lt hpos] at hthread ⊢
  omega

theorem decides_breakOrContinue (stackFrames : List StackFrame) (reason : UInt32)
    (bp : Option Breakpoints.Breakpoint) (bBreak : Bool) :
    Decides L (breakOrContinue L stackFrames reason bp bBreak) := by
  cases bBreak with
  | true => exact ⟨_,_,rfl⟩
  | false => exact ⟨rfl,rfl⟩

theorem decides_log (stats : List (Bytes × Bytes)) {threadId : ℕ} (stackLevel : ℕ)
    (hn : Names L threadId) (doneCallback : Bytes → Proc) (hd : ∀ b, Decides L (doneCallback b))
    (before rest : Bytes) :
    Decides L (processStatLogSequentially stats threadId stackLevel doneCallback before rest) := by
  induction rest using BreakDecision.logStats.induct stats generalizing before with
  | case1 rest hfind =>
    rw [BreakDecision.log_none hfind]
    exact hd _
  | case2 rest skipped key after hfind hstat ih =>
    rw [BreakDecision.log_skip hfind hstat]
    exact ih _
  | case3 rest skipped key after hfind stat hstat ih =>
    rw [BreakDecision.log_ask hfind hstat]
    refine ⟨hn,fun hit success root => ?_⟩
    dsimp only
    split
    · split
      · exact ih _
      · trivial
    · exact ih _

variable {bp : Breakpoints.Breakpoint} {threadId stackLevel : ℕ} {k : Bool → Proc}

theorem decides_checkStatLog (hn : Names L threadId) (hk : ∀ b, Decides L (k b)) :
    Decides L (checkStatLog bp threadId stackLevel k) := by
  unfold checkStatLog
  split
  · exact hk true
  · refine decides_log _ _ hn _ (fun b => ?_) _ _
    exact hk false

theorem decides_checkHitCondition (hn : Names L threadId) (hk : ∀ b, Decides L (k b)) :
    Decides L (checkHitCondition bp threadId stackLevel k) := by
  intro hit
  dsimp only
  split
  · exact decides_checkStatLog hn hk
  · refine ⟨hn,fun hit success root => ?_⟩
    dsimp only
    split
    · exact hk false
    · exact decides_checkStatLog hn hk

theorem decides_exec (id : ℕ) (hn : Names L (threadIdOf id)) (hk : ∀ b, Decides L (k b)) :
    Decides L (exec bp id k) := by
  unfold exec checkCondition
  split
  · exact decides_checkHitCondition hn hk
  · refine ⟨hn,fun hit success root => ?_⟩
    dsimp only
    split
    · exact hk false
    · exact decides_checkHitCondition hn hk

theorem names_listed (files : ℕ → Option File) (halign : L % 4 = 0) (hlt : L < 2^59)
    (frames : List EventStream.Frame)
    (position : ℕ) (hp : position + frames.length ≤ 128) :
    ∀ f ∈ listed files L position frames, Names L (threadIdOf f.id) := by
  induction frames generalizing position with
  | nil => exact List.forall_mem_nil _
  | cons f frames ih =>
    rw [List.length_cons] at hp
    have hrest := ih (position+1) (by omega)
    unfold listed
    split
    · exact List.forall_mem_cons.mpr ⟨names_frame halign hlt (by omega),hrest⟩
    · exact hrest

theorem decides_decideBreak (stack : EventStream.BreakStack) (stackFrames : List StackFrame)
    (hn : ∀ f ∈ stackFrames, Names L (threadIdOf f.id)) (bp : Option Breakpoints.Breakpoint) :
    Decides L (decideBreak L stack stackFrames bp) := by
  unfold decideBreak
  split
  · exact decides_breakOrContinue _ _ _ _
  · split
    · exact decides_breakOrContinue _ _ _ _
    · split
      · trivial
      · rename_i top rest
        exact decides_exec _ (hn top List.mem_cons_self) (fun b => decides_breakOrContinue _ _ _ b)

theorem decides_handleBreak (files : ℕ → Option File) (halign : L % 4 = 0) (hlt : L < 2^59)
    (errorMessage : Option Bytes) (bp : Option Breakpoints.Breakpoint) (tryStop : Bool)
    (stack : EventStream.BreakStack)
    (hs : stack.frames.length ≤ 100) :
    Decides L (handleBreak files L errorMessage bp tryStop stack) := by
  have hn := names_listed files halign hlt stack.frames 0 (by omega)
  unfold handleBreak
  dsimp only
  split
  · split
    · trivial
    · exact ⟨rfl,rfl⟩
  · split
    · split
      · trivial
      · exact decides_decideBreak stack _ hn _
    · exact decides_decideBreak stack _ hn _

theorem decides_handle (a : Adapter) (halign : L % 4 = 0) (hlt : L < 2^59) (stop : StopEvent)
    (hs : stop.stack.frames.length ≤ 100) : Decides L (a.handle L stop) := by
  cases stop with
  | «break» stack => exact decides_handleBreak a.files halign hlt none none true stack hs
  | fault kind message stack => exact decides_handleBreak a.files halign hlt (some message) _ _ stack hs

end Decides

section Enacted

variable {L thread hits : ℕ} {s : Variables.State}

def asking (s : Variables.State) (threadId stackLevel : ℕ)
    (callback : Bool → Bool → EventStream.Root → Proc) : Variables.State :=
  let id := (s.evaluateId+1) <<< 16
  {s.send ⟨none,.evaluate,Variables.wire id,threadId,stackLevel⟩ with
    evaluateId := s.evaluateId+1,
    pendingRequests := Function.update s.pendingRequests id (some callback)}

theorem asking_pendingRequests (threadId stackLevel : ℕ)
    (callback : Bool → Bool → EventStream.Root → Proc) :
    (asking s threadId stackLevel callback).pendingRequests =
      Function.update s.pendingRequests ((s.evaluateId+1) <<< 16) (some callback) := rfl

inductive Enacted (L thread : ℕ) (s : Variables.State) : List Effect → Variables.State × Bool → Prop where
  | idle (es : List Effect) (s' : Variables.State) (raised : Bool) :
      (∀ e ∈ es, ∃ c t, e = .output c t) → Kept s s' → Enacted L thread s es (s',raised)
  | continued (es : List Effect) (s' : Variables.State) :
      (∀ e ∈ es, ∃ c t, e = .output c t) → Kept s s' →
      Enacted L thread s (es ++ [.continue L]) (s',false)
  | published (es : List Effect) (reason : Option Bytes) (bp : Option ℕ) (s' : Variables.State) :
      (∀ e ∈ es, ∃ c t, e = .output c t) →
      Kept {s with stackTrace := Function.update s.stackTrace thread true} s' →
      Enacted L thread s (es ++ [.stopped reason L bp,.emitStopped]) (s',false)
  | asked (es : List Effect) (threadId stackLevel : ℕ)
      (callback : Bool → Bool → EventStream.Root → Proc) (s' : Variables.State) :
      (∀ e ∈ es, ∃ c t, e = .output c t) → Names L threadId →
      (∀ hit success root, Decides L (callback hit success root)) →
      Kept (asking s threadId stackLevel callback) s' → Enacted L thread s es (s',false)

theorem enacted_output {es : List Effect} {r : Variables.State × Bool} (c t : Bytes)
    (h : Enacted L thread s es r) : Enacted L thread s (.output c t :: es) r := by
  have hcons (es : List Effect) (hes : ∀ e ∈ es, ∃ c t, e = Effect.output c t) :
      ∀ e ∈ Effect.output c t :: es, ∃ c t, e = .output c t :=
    List.forall_mem_cons.mpr ⟨⟨c,t,rfl⟩,hes⟩
  cases h with
  | idle es s' raised hes hk => exact .idle _ _ _ (hcons _ hes) hk
  | continued es s' hes hk => exact .continued _ _ (hcons _ hes) hk
  | published es reason bp s' hes hk => exact .published _ reason bp _ (hcons _ hes) hk
  | asked es threadId stackLevel callback s' hes hn hd hk =>
    exact .asked _ threadId stackLevel callback _ (hcons _ hes) hn hd hk

theorem enact_enacted (thread hits : ℕ) (s : Variables.State) (p : Proc) (h : Decides L p) :
    Enacted L thread s (effects hits p) (enact thread hits p s) := by
  induction p generalizing hits s with
  | done => exact .idle [] s false nofun kept_refl
  | raise => exact .idle [] s true nofun kept_refl
  | emit e k ih =>
    cases e with
    | output c t => exact enacted_output c t (ih _ _ h)
    | «continue» nvm =>
      obtain ⟨rfl,rfl⟩ := h
      exact .continued [] s nofun kept_refl
    | evaluate seq expression nvm stackLevel => exact h.elim
    | setStacks thread stackFrames => exact h.elim
    | stopped reason threadId bp => exact h.elim
    | emitStopped => exact h.elim
  | setStacks stackFrames k ih =>
    obtain ⟨reason,bp,rfl⟩ := h
    exact .published [] reason bp _ nofun ⟨rfl,rfl,rfl,rfl,rfl⟩
  | hit k ih => exact ih (hits+1) _ _ (h (hits+1))
  | evaluate expression threadId stackLevel callback ih =>
    exact .asked [] threadId stackLevel callback _ nofun h.1 h.2 kept_refl

/-- An exception leaves the handler before it has decided. -/
theorem enacted_raised {es : List Effect} {s' : Variables.State} (h : Enacted L thread s es (s',true)) :
    (∀ e ∈ es, ∃ c t, e = .output c t) ∧ Kept s s' := by
  cases h with
  | idle es s' raised hes hkept => exact ⟨hes,hkept⟩

/-- The callback that has run is dropped, and is none that was registered meanwhile. -/
theorem enacted_dropped {k : ℕ} (hk : (s.evaluateId+1) <<< 16 ≠ k) {es : List Effect}
    {s' : Variables.State} (h : Enacted L thread s es (s',false)) :
    Enacted L thread {s with pendingRequests := Function.update s.pendingRequests k none} es
      ({s' with pendingRequests := Function.update s'.pendingRequests k none},false) := by
  have hdrop {t t' : Variables.State} (h : Kept t t') :
      Kept {t with pendingRequests := Function.update t.pendingRequests k none}
        {t' with pendingRequests := Function.update t'.pendingRequests k none} :=
    ⟨h.debugdata,h.stackTrace,h.evaluateId,by rw [h.pendingRequests],h.commands⟩
  cases h with
  | idle es s' raised hes hkept => exact .idle _ _ _ hes (hdrop hkept)
  | continued es s' hes hkept => exact .continued _ _ hes (hdrop hkept)
  | published es reason bp s' hes hkept => exact .published _ reason bp _ hes (hdrop hkept)
  | asked es threadId stackLevel callback s' hes hn hd hkept =>
    refine .asked _ threadId stackLevel callback _ hes hn hd ?_
    have hold := hdrop hkept
    refine ⟨hold.debugdata,hold.stackTrace,hold.evaluateId,?_,hold.commands⟩
    rw [hold.pendingRequests]
    dsimp only
    rw [asking_pendingRequests, asking_pendingRequests]
    dsimp only
    generalize (s.evaluateId+1) <<< 16 = key at hk ⊢
    exact Function.update_comm hk (some callback) none s.pendingRequests

end Enacted

end Vecoda.Deciding
