import Vecoda.CommandOrder
import Vecoda.Deciding
import Vecoda.Transitions
import Vecoda.BreakDecision

/-!
# Evaluations of stopped machines

The adapter, the two channels and the virtual machines of one session, whose
client resumes a thread only after its stopped event, and once. A break is
decided when it arrives, or by a callback that waits for the answer to an
evaluation; the callback stores its stack under the machine that was evaluated.
-/

set_option autoImplicit false

namespace Vecoda.StoppedEvaluation
open MessagePipe (Bytes)
open LuaText (text)
open Backend HandleBreak Resuming StaleResume CommandOrder Routing Deciding Transitions
open BreakDecision (conditional)
open Requests (Request Outside calm onTop enact answer handle)
open Variables (Command Host nowhere)

/-- `published` are the threads the client may resume; `awaits` names the machine
for whose break a callback was registered. -/
structure Session where
  stops : Resuming.State
  adapter : Variables.State
  published : ℕ → Bool
  awaits : ℕ → LuaState

def carryOut (stops : Resuming.State) : Effect → Resuming.State
  | .continue nvm => writeResume stops .continue nvm
  | _ => stops

def publish (published : ℕ → Bool) : Effect → ℕ → Bool
  | .stopped _ threadId _ => Function.update published threadId true
  | _ => published

def settle (s : Session) (vm : LuaState) (es : List Effect) (adapter : Variables.State) : Session :=
  {stops := adapter.commands.foldl writeEvaluate (es.foldl carryOut s.stops),
   adapter := {adapter with commands := []},
   published := es.foldl publish s.published,
   awaits := if adapter.evaluateId = s.adapter.evaluateId then s.awaits
     else Function.update s.awaits (adapter.evaluateId <<< 16) vm}

def update (s : Session) (hits : ℕ) (a : Adapter) (host : Host) : Option Session :=
  match s.stops.events with
  | [] => none
  | .break L _ stop :: _ => (receive s.stops).map (fun stops =>
      settle {s with stops := stops} L (effects hits (a.handle L stop))
        (enact L hits (a.handle L stop) s.adapter).1)
  | .result c success text :: _ => (receive s.stops).map (fun stops =>
      settle {s with stops := stops} (s.awaits c.seq)
        (effects hits ((callback c success text s.adapter).getD .done))
        (answer host hits c success text s.adapter).1)

def howResumed : Requests.Name → Resume
  | .next => .stepOver
  | .stepIn => .stepInto
  | .stepOut => .stepOut
  | _ => .continue

/-- A client that launches once, and resumes a thread once for each stopped event. -/
def obeys (s : Session) (req : Request) : Bool :=
  req.command ≠ .launch && req.command ≠ .attach && (asked req).all s.published

def continueRunning (req : Request) : Bool :=
  req.command = .disconnect && req.arguments.any (fun arg => !arg.terminateDebuggee)

def request (s : Session) (req : Request) (out : Outside) : Option Session :=
  if s.adapter.stop || req.seq ∈ s.adapter.received || !obeys s req then none
  else
    let adapter := handle out req {s.adapter with received := s.adapter.received ++ [req.seq]}
    let stops := adapter.commands.foldl writeEvaluate s.stops
    let stops := match resumed out req s.adapter with
      | some threadId => writeResume stops (howResumed req.command) threadId
      | none => stops
    let stops := if adapter.debugdata then stops else Resuming.stop stops (continueRunning req)
    some {stops := stops, adapter := {adapter with commands := []}, awaits := s.awaits,
          published := match asked req with
            | some threadId => Function.update s.published threadId false
            | none => s.published}

inductive Label where
  | backend (l : Resuming.Label)
  | request (req : Request) (out : Outside)
  | update (hits : ℕ) (a : Adapter) (host : Host)

def step (s : Session) : Label → Option Session
  | .backend l => (Resuming.step s.stops l).map (fun stops => {s with stops := stops})
  | .request req out => request s req out
  | .update hits a host => update s hits a host

def Allowed : Label → Prop
  | .backend l => Occurs l
  | _ => True

def Step (s : Session) (l : Label) (s' : Session) : Prop := Allowed l ∧ step s l = some s'

def initial : Session :=
  ⟨Resuming.initial,{Requests.initial with debugdata := true},fun _ => false,fun _ => 0⟩

/-- What is evaluated is a machine whose thread waits and is not about to wake. -/
def EvaluatesStopped (s : Session) : Prop :=
  ∀ c, s.stops.commandThread = .evaluating c → Waits s.stops c.vm

instance (s : Session) : Decidable (EvaluatesStopped s) :=
  match h : s.stops.commandThread with
  | .evaluating c => decidable_of_iff (Waits s.stops c.vm) (by simp [EvaluatesStopped, h])
  | .reading => isTrue (by simp [EvaluatesStopped, h])
  | .ended => isTrue (by simp [EvaluatesStopped, h])

/-- An answer that finds a callback finds one for a break of the machine that was evaluated. -/
def OwnCallback (s : Session) : Label → Prop
  | .update _ _ _ => ∀ c success text rest, s.stops.events = .result c success text :: rest →
      (callback c success text s.adapter).isSome = true → c.vm % 4 = 0 → s.awaits c.seq = c.vm
  | _ => True

structure Awaiting (s : Session) (k : ℕ) (callback : Bool → Bool → EventStream.Root → Proc) : Prop where
  decides : ∀ hit success root, Decides (s.awaits k) (callback hit success root)
  aligned : s.awaits k % 4 = 0
  stopped : s.stops.stopped (s.awaits k) = true
  unpublished : s.published (s.awaits k) = false
  untraced : s.adapter.stackTrace (s.awaits k) = false

/-- What the adapter keeps of a thread agrees with what it knows of its stops. -/
structure Tracked (s : Session) : Prop where
  debugdata : s.adapter.debugdata = s.stops.debugdata
  traced : s.stops.debugdata = true → ∀ L, L % 4 = 0 → s.adapter.stackTrace L = true →
    s.stops.stopped L = true
  published : s.stops.debugdata = true → ∀ L, s.published L = true → s.stops.stopped L = true
  pending : s.stops.debugdata = true → ∀ k cb, s.adapter.pendingRequests k = some cb → Awaiting s k cb
  unique : ∀ k k', s.adapter.pendingRequests k ≠ none → s.adapter.pendingRequests k' ≠ none →
    s.awaits k = s.awaits k' → k = k'
  fresh : ∀ k, s.adapter.pendingRequests k ≠ none → k ≤ s.adapter.evaluateId <<< 16

structure Consistent (s : Session) : Prop where
  ordered : Ordered s.stops
  tracked : Tracked s
  empty : s.adapter.commands = []
  frames : ∀ L n stop, .break L n stop ∈ s.stops.events → Handle L ∧ stop.stack.frames.length ≤ 100

structure Undecided (s : Session) (L : LuaState) : Prop where
  aligned : L % 4 = 0
  stopped : s.stops.stopped L = true
  unpublished : s.published L = false
  untraced : s.adapter.stackTrace L = false
  free : ∀ k, s.adapter.pendingRequests k ≠ none → s.awaits k ≠ L

section Tracked

variable {s : Session} {L : LuaState}

theorem tracked_kept (h : Tracked s) {adapter : Variables.State} (hk : Kept s.adapter adapter) :
    Tracked {s with adapter := adapter} := by
  refine ⟨hk.debugdata.trans h.debugdata,fun hd M hM ht => ?_,h.published,fun hd k cb hcb => ?_,
    fun k k' hk' hk'' => ?_,fun k hk' => ?_⟩
  · exact h.traced hd M hM (hk.stackTrace ▸ ht)
  · have hold := h.pending hd k cb (hk.pendingRequests ▸ hcb)
    exact ⟨hold.decides,hold.aligned,hold.stopped,hold.unpublished,hk.stackTrace ▸ hold.untraced⟩
  · exact h.unique k k' (hk.pendingRequests ▸ hk') (hk.pendingRequests ▸ hk'')
  · rw [hk.evaluateId]
    exact h.fresh k (hk.pendingRequests ▸ hk')

/-- A callback that has run is dropped. -/
theorem tracked_dropped (h : Tracked s) (k : ℕ) : Tracked {s with adapter :=
    {s.adapter with pendingRequests := Function.update s.adapter.pendingRequests k none}} := by
  have hold (j : ℕ) (hj : Function.update s.adapter.pendingRequests k none j ≠ none) :
      j ≠ k ∧ s.adapter.pendingRequests j ≠ none := by
    by_cases hjk : j = k
    · simp [hjk] at hj
    · rw [Function.update_of_ne hjk] at hj
      exact ⟨hjk,hj⟩
  refine ⟨h.debugdata,h.traced,h.published,fun hd j cb hj => ?_,fun j j' hj hj' => ?_,fun j hj => ?_⟩
  · obtain ⟨hjk,-⟩ := hold j (Option.ne_none_iff_exists'.mpr ⟨cb,hj⟩)
    dsimp only at hj
    rw [Function.update_of_ne hjk] at hj
    have hwait := h.pending hd j cb hj
    exact ⟨hwait.decides,hwait.aligned,hwait.stopped,hwait.unpublished,hwait.untraced⟩
  · exact h.unique j j' (hold j hj).2 (hold j' hj').2
  · exact h.fresh j (hold j hj).2

theorem tracked_continued (h : Tracked s) (hu : Undecided s L) (how : Resume) :
    Tracked {s with stops := writeResume s.stops how L} := by
  unfold writeResume
  split
  · exact h
  · have hother (M : LuaState) (hM : s.stops.stopped M = true) (hne : M ≠ L) :
        Function.update s.stops.stopped L false M = true := by
      rwa [Function.update_of_ne hne]
    refine ⟨h.debugdata,fun hd M hM ht => ?_,fun hd M hM => ?_,fun hd k cb hcb => ?_,h.unique,h.fresh⟩
    · apply hother M (h.traced hd M hM ht)
      rintro rfl
      rw [hu.untraced] at ht
      cases ht
    · apply hother M (h.published hd M hM)
      rintro rfl
      rw [hu.unpublished] at hM
      cases hM
    · have hwait := h.pending hd k cb hcb
      have hpending := Option.ne_none_iff_exists'.mpr ⟨cb,hcb⟩
      exact ⟨hwait.decides,hwait.aligned,hother _ hwait.stopped (hu.free k hpending),
        hwait.unpublished,hwait.untraced⟩

/-- A stack is stored for the thread that is published, or for no thread at all. -/
theorem tracked_published (h : Tracked s) (hu : Undecided s L) {thread : ℕ}
    (ht : thread % 4 = 0 → thread = L) :
    Tracked {s with
      adapter := {s.adapter with stackTrace := Function.update s.adapter.stackTrace thread true},
      published := Function.update s.published L true} := by
  refine ⟨h.debugdata,fun hd M hM htrace => ?_,fun hd M hM => ?_,fun hd k cb hcb => ?_,h.unique,h.fresh⟩
  · by_cases hMt : M = thread
    · rw [hMt, ht (hMt ▸ hM)]
      exact hu.stopped
    · dsimp only at htrace
      rw [Function.update_of_ne hMt] at htrace
      exact h.traced hd M hM htrace
  · by_cases hML : M = L
    · rw [hML]
      exact hu.stopped
    · dsimp only at hM
      rw [Function.update_of_ne hML] at hM
      exact h.published hd M hM
  · have hwait := h.pending hd k cb hcb
    have hne : s.awaits k ≠ L := hu.free k (Option.ne_none_iff_exists'.mpr ⟨cb,hcb⟩)
    refine ⟨hwait.decides,hwait.aligned,hwait.stopped,?_,?_⟩
    · dsimp only
      rw [Function.update_of_ne hne]
      exact hwait.unpublished
    · have hthread : s.awaits k ≠ thread := by
        intro he
        exact hne (he.trans (ht (he ▸ hwait.aligned)))
      dsimp only
      rw [Function.update_of_ne hthread]
      exact hwait.untraced

theorem tracked_asked (h : Tracked s) (hu : Undecided s L) (threadId stackLevel : ℕ)
    {callback : Bool → Bool → EventStream.Root → Proc}
    (hd : ∀ hit success root, Decides L (callback hit success root)) :
    Tracked {s with
      adapter := asking s.adapter threadId stackLevel callback,
      awaits := Function.update s.awaits ((s.adapter.evaluateId+1) <<< 16) L} := by
  have hpending := asking_pendingRequests (s := s.adapter) threadId stackLevel callback
  have hlast : (asking s.adapter threadId stackLevel callback).evaluateId <<< 16 =
      (s.adapter.evaluateId+1) <<< 16 := rfl
  have hgrows : s.adapter.evaluateId <<< 16 ≤ (s.adapter.evaluateId+1) <<< 16 := by
    simp only [Nat.shiftLeft_eq]
    omega
  generalize (s.adapter.evaluateId+1) <<< 16 = key at hpending hlast hgrows ⊢
  have hcases (k : ℕ) {cb} (hk : (asking s.adapter threadId stackLevel callback).pendingRequests k = some cb) :
      (k = key ∧ cb = callback) ∨ (k ≠ key ∧ s.adapter.pendingRequests k = some cb) := by
    rw [hpending, Function.update_apply] at hk
    split at hk
    · rename_i he
      exact .inl ⟨he,(Option.some.inj hk).symm⟩
    · rename_i hne
      exact .inr ⟨hne,hk⟩
  refine ⟨h.debugdata,h.traced,h.published,fun hdata k cb hcb => ?_,fun k k' hk hk' he => ?_,
    fun k hk => ?_⟩
  · rcases hcases k hcb with ⟨rfl,rfl⟩ | ⟨hne,hold⟩
    · constructor <;> dsimp only <;> rw [Function.update_self]
      · exact hd
      · exact hu.aligned
      · exact hu.stopped
      · exact hu.unpublished
      · exact hu.untraced
    · have hwait := h.pending hdata k cb hold
      constructor <;> dsimp only <;> rw [Function.update_of_ne hne]
      · exact hwait.decides
      · exact hwait.aligned
      · exact hwait.stopped
      · exact hwait.unpublished
      · exact hwait.untraced
  · obtain ⟨cb,hcb⟩ := Option.ne_none_iff_exists'.mp hk
    obtain ⟨cb',hcb'⟩ := Option.ne_none_iff_exists'.mp hk'
    dsimp only at he
    rcases hcases k hcb with ⟨rfl,-⟩ | ⟨hne,hold⟩ <;> rcases hcases k' hcb' with ⟨rfl,-⟩ | ⟨hne',hold'⟩
    · rfl
    · rw [Function.update_self, Function.update_of_ne hne'] at he
      exact absurd he.symm (hu.free k' (Option.ne_none_iff_exists'.mpr ⟨cb',hold'⟩))
    · rw [Function.update_self, Function.update_of_ne hne] at he
      exact absurd he (hu.free k (Option.ne_none_iff_exists'.mpr ⟨cb,hold⟩))
    · rw [Function.update_of_ne hne, Function.update_of_ne hne'] at he
      exact h.unique k k' (Option.ne_none_iff_exists'.mpr ⟨cb,hold⟩)
        (Option.ne_none_iff_exists'.mpr ⟨cb',hold'⟩) he
  · obtain ⟨cb,hcb⟩ := Option.ne_none_iff_exists'.mp hk
    dsimp only
    rw [hlast]
    rcases hcases k hcb with ⟨rfl,-⟩ | ⟨hne,hold⟩
    · exact le_refl _
    · exact (h.fresh k (Option.ne_none_iff_exists'.mpr ⟨cb,hold⟩)).trans hgrows

theorem tracked_stops (h : Tracked s) {stops : Resuming.State}
    (hd : stops.debugdata = s.stops.debugdata) (hs : stops.stopped = s.stops.stopped) :
    Tracked {s with stops := stops} := by
  refine ⟨h.debugdata.trans hd.symm,fun hdata M hM ht => ?_,fun hdata M hM => ?_,fun hdata k cb hcb => ?_,
    h.unique,h.fresh⟩
  · exact hs ▸ h.traced (hd ▸ hdata) M hM ht
  · exact hs ▸ h.published (hd ▸ hdata) M hM
  · have hwait := h.pending (hd ▸ hdata) k cb hcb
    exact ⟨hwait.decides,hwait.aligned,hs ▸ hwait.stopped,hwait.unpublished,hwait.untraced⟩

/-- The client asks to resume a thread: its stored stack goes with it. -/
theorem tracked_resumed (h : Tracked s) (how : Resume) (hd : s.stops.debugdata = true)
    (hp : s.published L = true) :
    Tracked {s with
      stops := writeResume s.stops how L,
      adapter := {s.adapter with stackTrace := Function.update s.adapter.stackTrace L false},
      published := Function.update s.published L false} := by
  have hother {f : ℕ → Bool} (M : ℕ) (hM : Function.update f L false M = true) :
      M ≠ L ∧ f M = true := by
    by_cases hML : M = L
    · simp [hML] at hM
    · rw [Function.update_of_ne hML] at hM
      exact ⟨hML,hM⟩
  have hstay (M : LuaState) (hM : s.stops.stopped M = true) (hne : M ≠ L) :
      Function.update s.stops.stopped L false M = true := by
    rwa [Function.update_of_ne hne]
  unfold writeResume
  rw [if_neg (by simpa using hd)]
  refine ⟨h.debugdata,fun _ M hM ht => ?_,fun _ M hM => ?_,fun _ k cb hcb => ?_,h.unique,h.fresh⟩
  · obtain ⟨hne,hold⟩ := hother M ht
    exact hstay M (h.traced hd M hM hold) hne
  · obtain ⟨hne,hold⟩ := hother M hM
    exact hstay M (h.published hd M hold) hne
  · have hwait := h.pending hd k cb hcb
    have hne : s.awaits k ≠ L := by
      rintro rfl
      rw [hwait.unpublished] at hp
      cases hp
    refine ⟨hwait.decides,hwait.aligned,hstay _ hwait.stopped hne,?_,?_⟩ <;> dsimp only <;>
      rw [Function.update_of_ne hne]
    · exact hwait.unpublished
    · exact hwait.untraced

theorem tracked_unpublished (h : Tracked s) {published : ℕ → Bool}
    (hp : ∀ L, published L = true → s.published L = true) : Tracked {s with published := published} := by
  refine ⟨h.debugdata,h.traced,fun hd L hL => h.published hd L (hp L hL),fun hd k cb hcb => ?_,
    h.unique,h.fresh⟩
  have hwait := h.pending hd k cb hcb
  refine ⟨hwait.decides,hwait.aligned,hwait.stopped,?_,hwait.untraced⟩
  rw [← Bool.not_eq_true]
  intro hpublished
  have hold := hp _ hpublished
  dsimp only at hold
  rw [hwait.unpublished] at hold
  cases hold

/-- Nothing is claimed of a session that has ended. -/
theorem tracked_ended (h : Tracked s) {stops : Resuming.State} (hd : stops.debugdata = false) :
    Tracked {s with stops := stops, adapter := {s.adapter with debugdata := false}} := by
  refine ⟨hd.symm,?_,?_,?_,h.unique,h.fresh⟩ <;> dsimp only <;> rw [hd] <;> intro hf <;> cases hf

theorem tracked_cleared (h : Tracked s) :
    Tracked {s with adapter := {s.adapter with commands := []}} :=
  ⟨h.debugdata,h.traced,h.published,fun hd k cb hcb =>
    let hwait := h.pending hd k cb hcb
    ⟨hwait.decides,hwait.aligned,hwait.stopped,hwait.unpublished,hwait.untraced⟩,h.unique,h.fresh⟩

end Tracked

section Settle

variable {s : Session} {L : LuaState}

theorem carryOut_outputs {es : List Effect} (hes : ∀ e ∈ es, ∃ c t, e = .output c t)
    (stops : Resuming.State) : es.foldl carryOut stops = stops := by
  induction es with
  | nil => rfl
  | cons e es ih =>
    obtain ⟨⟨c,t,rfl⟩,hrest⟩ := List.forall_mem_cons.mp hes
    exact ih hrest

theorem publish_outputs {es : List Effect} (hes : ∀ e ∈ es, ∃ c t, e = .output c t)
    (published : ℕ → Bool) : es.foldl publish published = published := by
  induction es with
  | nil => rfl
  | cons e es ih =>
    obtain ⟨⟨c,t,rfl⟩,hrest⟩ := List.forall_mem_cons.mp hes
    exact ih hrest

theorem settle_silent {es : List Effect} {adapter : Variables.State} (hc : adapter.commands = [])
    (hid : adapter.evaluateId = s.adapter.evaluateId) :
    settle s L es adapter =
      ⟨es.foldl carryOut s.stops,{adapter with commands := []},es.foldl publish s.published,s.awaits⟩ := by
  rw [settle, hc, if_pos hid]
  rfl

theorem settle_asking {es : List Effect} {adapter : Variables.State} {c : Command}
    (hc : adapter.commands = [c]) (hid : adapter.evaluateId ≠ s.adapter.evaluateId) :
    settle s L es adapter = ⟨writeEvaluate (es.foldl carryOut s.stops) c,{adapter with commands := []},
      es.foldl publish s.published,Function.update s.awaits (adapter.evaluateId <<< 16) L⟩ := by
  rw [settle, hc, if_neg hid]
  rfl

theorem events_writeResume (how : Resume) : (writeResume s.stops how L).events = s.stops.events := by
  unfold writeResume
  split <;> rfl

theorem writeEvaluate_spec (stops : Resuming.State) (c : Command) :
    (writeEvaluate stops c).events = stops.events ∧ (writeEvaluate stops c).debugdata = stops.debugdata ∧
      (writeEvaluate stops c).stopped = stops.stopped := by
  unfold writeEvaluate
  split <;> exact ⟨rfl,rfl,rfl⟩

theorem consistent_idle (hc : Consistent s) {es : List Effect}
    (hes : ∀ e ∈ es, ∃ c t, e = .output c t) {adapter : Variables.State}
    (hk : Kept s.adapter adapter) : Consistent (settle s L es adapter) := by
  rw [settle_silent (hk.commands.trans hc.empty) hk.evaluateId, carryOut_outputs hes, publish_outputs hes]
  exact ⟨hc.ordered,tracked_cleared (tracked_kept hc.tracked hk),rfl,hc.frames⟩

/-- What comes of a break or of its callback. -/
theorem consistent_settle (hc : Consistent s) (hu : Undecided s L) {thread : ℕ}
    (hthread : thread % 4 = 0 → thread = L) {es : List Effect} {r : Variables.State × Bool}
    (he : Enacted L thread s.adapter es r) {adapter : Variables.State} (hk : Kept r.1 adapter) :
    Consistent (settle s L es adapter) := by
  cases he with
  | idle es s' raised hes hk' => exact consistent_idle hc hes (kept_trans hk' hk)
  | continued es s' hes hk' =>
    have hkept := kept_trans hk' hk
    have hcommands := hkept.commands.trans hc.empty
    rw [settle_silent hcommands hkept.evaluateId, List.foldl_append, List.foldl_append,
      carryOut_outputs hes, publish_outputs hes]
    refine ⟨ordered_resume hc.ordered .continue (fun _ => hu.stopped),?_,rfl,?_⟩
    · exact tracked_cleared (tracked_kept (s := {s with stops := writeResume s.stops .continue L})
        (tracked_continued hc.tracked hu .continue) hkept)
    · intro M n stop hm
      exact hc.frames M n stop (events_writeResume (s := s) (L := L) .continue ▸ hm)
  | published es reason bp s' hes hk' =>
    have hkept := kept_trans hk' hk
    have hcommands := hkept.commands.trans hc.empty
    rw [settle_silent hcommands hkept.evaluateId, List.foldl_append, List.foldl_append,
      carryOut_outputs hes, publish_outputs hes]
    exact ⟨hc.ordered,tracked_cleared (tracked_kept (tracked_published hc.tracked hu hthread) hkept),rfl,
      hc.frames⟩
  | asked es threadId stackLevel callback s' hes hn hd hk' =>
    have hkept := kept_trans hk' hk
    have hcommands : adapter.commands = [⟨none,.evaluate,Variables.wire ((s.adapter.evaluateId+1) <<< 16),
        threadId,stackLevel⟩] := by
      rw [hkept.commands, asking, Variables.State.send, hc.empty]
      rfl
    have hid : adapter.evaluateId = s.adapter.evaluateId+1 := hkept.evaluateId
    rw [settle_asking hcommands (by omega), carryOut_outputs hes, publish_outputs hes]
    obtain ⟨hevents,hdata,hstopped⟩ := writeEvaluate_spec s.stops
      ⟨none,.evaluate,Variables.wire ((s.adapter.evaluateId+1) <<< 16),threadId,stackLevel⟩
    refine ⟨ordered_evaluate hc.ordered _ (fun _ halign => ?_),?_,rfl,fun M n stop hm => ?_⟩
    · rw [hn halign]
      exact hu.stopped
    · have htracked := tracked_asked hc.tracked hu threadId stackLevel hd
      rw [← hid] at htracked
      exact tracked_cleared (tracked_kept (tracked_stops htracked hdata hstopped) hkept)
    · exact hc.frames M n stop (hevents ▸ hm)

end Settle

section Steps

variable {s s' : Session}

theorem consistent_backend (h : Consistent s) {l : Resuming.Label} {stops : Resuming.State}
    (ho : Occurs l) (hs : Resuming.Step s.stops l stops) : Consistent {s with stops := stops} := by
  obtain ⟨hdata,hstopped⟩ := occurs_adapter ho hs
  refine ⟨ordered_occurs h.ordered ho hs,tracked_stops h.tracked hdata hstopped,h.empty,
    fun L n stop hm => ?_⟩
  rcases occurs_events ho hs hm with hold | ⟨hvm,hlength⟩
  · exact h.frames L n stop hold
  · exact ⟨h.ordered.handles L hvm,hlength⟩

/-- A break that arrives finds nothing stored of its thread. -/
theorem consistent_received (h : Consistent s) {stops : Resuming.State} {L : LuaState} {n : ℕ}
    {stop : StopEvent} {rest : List Event} (he : s.stops.events = .break L n stop :: rest)
    (hr : receive s.stops = some stops) :
    Consistent {s with stops := stops} ∧ Undecided {s with stops := stops} L ∧
      Handle L ∧ stop.stack.frames.length ≤ 100 := by
  have hordered := ordered_receive h.ordered hr
  obtain ⟨hhandle,hlength⟩ := h.frames L n stop (by rw [he]; exact List.mem_cons_self)
  unfold receive at hr
  split at hr
  · cases hr
  · rename_i hdata
    rw [Bool.not_eq_true', Bool.not_eq_false] at hdata
    simp only [he, Option.some.injEq] at hr
    subst hr
    have hnot : s.stops.stopped L ≠ true := by
      intro hL
      have hquiet := (stopped_waits h.ordered.toSettled hdata hL).2.1 n stop
      rw [he] at hquiet
      exact hquiet List.mem_cons_self
    have hother (M : LuaState) (hM : s.stops.stopped M = true) :
        Function.update s.stops.stopped L true M = true := by
      by_cases hML : M = L
      · simp [hML]
      · rwa [Function.update_of_ne hML]
    refine ⟨⟨hordered,⟨h.tracked.debugdata,fun hd M hM ht => ?_,fun hd M hM => ?_,fun hd k cb hcb => ?_,
      h.tracked.unique,h.tracked.fresh⟩,h.empty,fun M m stop' hm => ?_⟩,⟨hhandle.aligned,?_,?_,?_,?_⟩,
      hhandle,hlength⟩
    · exact hother M (h.tracked.traced hd M hM ht)
    · exact hother M (h.tracked.published hd M hM)
    · have hwait := h.tracked.pending hd k cb hcb
      exact ⟨hwait.decides,hwait.aligned,hother _ hwait.stopped,hwait.unpublished,hwait.untraced⟩
    · exact h.frames M m stop' (by rw [he]; exact List.mem_cons_of_mem _ hm)
    · exact Function.update_self _ _ _
    · rw [← Bool.not_eq_true]
      exact fun hpublished => hnot (h.tracked.published hdata L hpublished)
    · rw [← Bool.not_eq_true]
      exact fun htraced => hnot (h.tracked.traced hdata L hhandle.aligned htraced)
    · intro k hk hL
      obtain ⟨cb,hcb⟩ := Option.ne_none_iff_exists'.mp hk
      exact hnot (hL ▸ (h.tracked.pending hdata k cb hcb).stopped)

theorem consistent_popped (h : Consistent s) {stops : Resuming.State} {c : Command} {success : Bool}
    {text : Bytes} {rest : List Event} (he : s.stops.events = .result c success text :: rest)
    (hr : receive s.stops = some stops) :
    Consistent {s with stops := stops} ∧ stops.debugdata = true := by
  have hordered := ordered_receive h.ordered hr
  unfold receive at hr
  split at hr
  · cases hr
  · rename_i hdata
    simp only [he, Option.some.injEq] at hr
    subst hr
    refine ⟨⟨hordered,tracked_stops h.tracked rfl rfl,h.empty,fun M m stop' hm => ?_⟩,by simpa using hdata⟩
    exact h.frames M m stop' (by rw [he]; exact List.mem_cons_of_mem _ hm)

/-- A callback that waits is that of a stopped thread of which nothing is stored. -/
theorem undecided_dropped (h : Consistent s) (hd : s.stops.debugdata = true) {k : ℕ}
    {cb : Bool → Bool → EventStream.Root → Proc} (hcb : s.adapter.pendingRequests k = some cb) :
    Undecided {s with adapter := {s.adapter with
      pendingRequests := Function.update s.adapter.pendingRequests k none}} (s.awaits k) := by
  have hwait := h.tracked.pending hd k cb hcb
  refine ⟨hwait.aligned,hwait.stopped,hwait.unpublished,hwait.untraced,fun j hj => ?_⟩
  have hjk : j ≠ k := by
    rintro rfl
    exact hj (Function.update_self _ _ _)
  dsimp only at hj
  rw [Function.update_of_ne hjk] at hj
  intro he
  exact hjk (h.tracked.unique j k hj (Option.ne_none_iff_exists'.mpr ⟨cb,hcb⟩) he)

theorem consistent_update (h : Consistent s) {hits : ℕ} {a : Adapter} {host : Host}
    (hs : update s hits a host = some s') (ho : OwnCallback s (.update hits a host)) :
    Consistent s' := by
  unfold update at hs
  split at hs
  · cases hs
  · rename_i L n stop rest he
    obtain ⟨stops,hr,rfl⟩ := Option.map_eq_some_iff.mp hs
    obtain ⟨hc,hu,hhandle,hlength⟩ := consistent_received h he hr
    exact consistent_settle hc hu (fun _ => rfl)
      (enact_enacted _ _ _ _ (decides_handle a hhandle.aligned hhandle.bound stop hlength)) kept_refl
  · rename_i c success text rest he
    obtain ⟨stops,hr,rfl⟩ := Option.map_eq_some_iff.mp hs
    obtain ⟨hc,hdata⟩ := consistent_popped h he hr
    have hanswer := answer_kept host hits c success text s.adapter
    have hown := ho c success text rest he
    cases hcallback : callback c success text s.adapter with
    | none =>
      rw [hcallback] at hanswer
      exact consistent_idle hc (List.forall_mem_nil _) hanswer
    | some p =>
      rw [hcallback] at hanswer hown
      obtain ⟨cb,hit,root,hpending,-,rfl⟩ := callback_pending c success text s.adapter hcallback
      have hwait := hc.tracked.pending hdata c.seq cb hpending
      have henacted := enact_enacted c.vm hits s.adapter _
        (hwait.decides hit success root)
      dsimp only [called] at hanswer
      generalize hrun : enact c.vm hits (cb hit success root) s.adapter = r at hanswer henacted
      obtain ⟨t,raised⟩ := r
      cases raised with
      | true =>
        obtain ⟨hes,hk⟩ := enacted_raised henacted
        exact consistent_idle hc hes (kept_trans hk hanswer)
      | false =>
        have hfresh : (s.adapter.evaluateId+1) <<< 16 ≠ c.seq := by
          have hle := h.tracked.fresh c.seq (Option.ne_none_iff_exists'.mpr ⟨cb,hpending⟩)
          rw [Nat.shiftLeft_eq] at hle ⊢
          omega
        have hdropped : Consistent {s with stops := stops, adapter :=
            {s.adapter with pendingRequests := Function.update s.adapter.pendingRequests c.seq none}} :=
          ⟨hc.ordered,tracked_dropped hc.tracked c.seq,hc.empty,hc.frames⟩
        exact consistent_settle hdropped (undecided_dropped hc hdata hpending)
          (fun halign => (hown rfl halign).symm) (enacted_dropped hfresh henacted) hanswer

/-- A client that asks to resume a thread does not take it for stopped any longer. -/
theorem unpublished_asked (req : Request) (L : ℕ)
    (h : (match asked req with
      | some threadId => Function.update s.published threadId false
      | none => s.published) L = true) : s.published L = true := by
  cases ha : asked req with
  | none => rwa [ha] at h
  | some t =>
    rw [ha] at h
    dsimp only at h
    by_cases hL : L = t
    · simp [hL] at h
    · rwa [Function.update_of_ne hL] at h

theorem asked_of_resumed {out : Outside} {req : Request} {adapter : Variables.State} {t : ℕ}
    (h : resumed out req adapter = some t) : asked req = some t ∧ adapter.debugdata = true := by
  unfold resumed at h
  split at h
  · rename_i hguard
    exact ⟨h,(Bool.and_eq_true _ _ ▸ hguard).1⟩
  · cases h

theorem stop_debugdata (stops : Resuming.State) (continueRunning : Bool) :
    (Resuming.stop stops continueRunning).debugdata = false := by
  unfold Resuming.stop
  split
  · rename_i hd
    simpa using hd
  · rfl

theorem stop_events (stops : Resuming.State) (continueRunning : Bool) :
    (Resuming.stop stops continueRunning).events = stops.events := by
  unfold Resuming.stop
  split <;> rfl

theorem stop_ended {stops : Resuming.State} (h : stops.debugdata = false) (continueRunning : Bool) :
    Resuming.stop stops continueRunning = stops := by
  unfold Resuming.stop
  rw [if_pos (by simpa using h)]

/-- The other requests do not resume a thread. -/
theorem consistent_handled (h : Consistent s) {seq : ℕ} {adapter : Variables.State}
    (hh : Handled seq s.adapter adapter) {published : ℕ → Bool}
    (hp : ∀ L, published L = true → s.published L = true) (continueRunning : Bool) :
    Consistent
      {stops := if adapter.debugdata then adapter.commands.foldl writeEvaluate s.stops
        else Resuming.stop (adapter.commands.foldl writeEvaluate s.stops) continueRunning,
       adapter := {adapter with commands := []}, published := published, awaits := s.awaits} := by
  cases hh with
  | kept hk =>
    have hstops : (if adapter.debugdata then s.stops else Resuming.stop s.stops continueRunning) =
        s.stops := by
      split
      · rfl
      · rename_i hd
        rw [hk.debugdata, h.tracked.debugdata, Bool.not_eq_true] at hd
        exact stop_ended hd _
    rw [hk.commands, h.empty, List.foldl_nil, hstops]
    exact ⟨h.ordered,tracked_cleared (tracked_unpublished (tracked_kept h.tracked hk) hp),rfl,h.frames⟩
  | sent c hd ht ho hk =>
    have hcommands : adapter.commands = [c] := by
      rw [hk.commands, Variables.State.send, h.empty]
      rfl
    obtain ⟨hevents,hdata,hstopped⟩ := writeEvaluate_spec s.stops c
    have hsent : Kept {s.adapter with commands := [c]} adapter :=
      ⟨hk.debugdata,hk.stackTrace,hk.evaluateId,hk.pendingRequests,hcommands⟩
    have hsend : Tracked {s with adapter := {s.adapter with commands := [c]}} :=
      ⟨h.tracked.debugdata,h.tracked.traced,h.tracked.published,fun hd k cb hcb =>
        let hwait := h.tracked.pending hd k cb hcb
        ⟨hwait.decides,hwait.aligned,hwait.stopped,hwait.unpublished,hwait.untraced⟩,
        h.tracked.unique,h.tracked.fresh⟩
    have hdebug : adapter.debugdata = true := hk.debugdata.trans hd
    rw [hcommands, if_pos hdebug]
    refine ⟨ordered_evaluate h.ordered c (fun hdata halign => h.tracked.traced hdata _ halign ht),?_,rfl,
      fun M n stop hm => h.frames M n stop (hevents ▸ hm)⟩
    exact tracked_cleared (tracked_unpublished (tracked_kept (tracked_stops hsend hdata hstopped) hsent) hp)
  | stopped hd hk =>
    have hcommands : adapter.commands = [] := hk.commands.trans h.empty
    have hdebug : adapter.debugdata ≠ true := by
      rw [hk.debugdata]
      exact Bool.false_ne_true
    rw [hcommands, if_neg hdebug, List.foldl_nil]
    refine ⟨ordered_stop h.ordered continueRunning,?_,rfl,fun M n stop hm => ?_⟩
    · exact tracked_cleared (tracked_unpublished (tracked_kept
        (tracked_ended h.tracked (stop_debugdata s.stops continueRunning)) hk) hp)
    · exact h.frames M n stop (stop_events s.stops continueRunning ▸ hm)

theorem consistent_request (h : Consistent s) {req : Request} {out : Outside}
    (hs : request s req out = some s') : Consistent s' := by
  unfold request at hs
  split at hs
  · cases hs
  · rename_i hguard
    simp only [Bool.or_eq_true, not_or, Bool.not_eq_true', Bool.not_eq_false, obeys,
      Bool.and_eq_true, decide_eq_true_eq] at hguard
    obtain ⟨-,⟨hlaunch,hattach⟩,hall⟩ := hguard
    cases hs
    have hreceived : Consistent {s with adapter :=
        {s.adapter with received := s.adapter.received ++ [req.seq]}} :=
      ⟨h.ordered,tracked_kept h.tracked ⟨rfl,rfl,rfl,rfl,rfl⟩,h.empty,h.frames⟩
    have hspec := handle_spec {s.adapter with received := s.adapter.received ++ [req.seq]} req out
      hlaunch hattach
    generalize handle out req {s.adapter with received := s.adapter.received ++ [req.seq]} = adapter at hspec
    have hresumed : resumed out req {s.adapter with received := s.adapter.received ++ [req.seq]} =
        resumed out req s.adapter := rfl
    rw [hresumed] at hspec
    cases hr : resumed out req s.adapter with
    | none =>
      rw [hr] at hspec
      exact consistent_handled hreceived hspec (unpublished_asked req) (continueRunning req)
    | some t =>
      rw [hr] at hspec
      obtain ⟨hasked,hdata⟩ := asked_of_resumed hr
      have hd : s.stops.debugdata = true := h.tracked.debugdata ▸ hdata
      have hp : s.published t = true := by simpa [hasked] using hall
      dsimp only
      have hcommands : adapter.commands = [] := hspec.commands.trans h.empty
      have hdebug : adapter.debugdata = true := hspec.debugdata.trans hdata
      rw [hcommands, if_pos hdebug, hasked]
      refine ⟨ordered_resume h.ordered _ (fun _ => h.tracked.published hd t hp),?_,rfl,fun M n stop hm => ?_⟩
      · exact tracked_cleared (tracked_kept (tracked_resumed hreceived.tracked _ hd hp) hspec)
      · exact h.frames M n stop (events_writeResume (s := s) (L := t) _ ▸ hm)

theorem consistent_initial : Consistent initial := by
  refine ⟨⟨settled_initial,?_,?_,?_⟩,⟨rfl,?_,?_,?_,?_,?_⟩,rfl,?_⟩
  · exact fun _ h => absurd h Bool.false_ne_true
  · exact fun before c after h => by simp [initial, Resuming.initial] at h
  · exact fun c h => by cases h
  · exact fun _ L _ h => absurd h Bool.false_ne_true
  · exact fun _ L h => absurd h Bool.false_ne_true
  · exact fun _ k cb h => by cases h
  · exact fun k k' h => absurd rfl h
  · exact fun k h => absurd rfl h
  · exact fun L n stop h => absurd h List.not_mem_nil

theorem consistent_step (s : Session) (l : Label) (s' : Session) (h : Consistent s) (hs : Step s l s')
    (ho : OwnCallback s l) : Consistent s' := by
  obtain ⟨hallowed,hs⟩ := hs
  cases l with
  | backend l =>
    obtain ⟨stops,hstep,rfl⟩ := Option.map_eq_some_iff.mp hs
    exact consistent_backend h hallowed hstep
  | request req out => exact consistent_request h hs
  | update hits a host => exact consistent_update h hs ho

end Steps

/-- What is evaluated is a stopped machine in a run in which every callback is run by
the answer to its own evaluation. -/
theorem stopped_along (labels : List Label) (h : Meets Step OwnCallback initial labels) :
    Along Step EvaluatesStopped initial labels :=
  along_of_meets (fun _ hs c hc => (hs.ordered.evaluating c hc).1) consistent_step initial labels
    consistent_initial h

def checked : List Label :=
  [.backend (.attachState 4 true),.backend (.sendBreak 4 (breakAt 1 4)),.update 0 conditional nowhere,
   .backend .command,.backend (.evaluated true (text "<r><t></t></r>")),.update 0 conditional nowhere]

theorem stopped_along_checked : Along Step EvaluatesStopped initial checked := by
  apply stopped_along checked
  rintro _ ⟨-,hattach⟩
  cases hattach
  refine ⟨trivial,?_⟩
  rintro _ ⟨-,hbreak⟩
  cases hbreak
  refine ⟨trivial,?_⟩
  rintro _ ⟨-,hupdate⟩
  cases hupdate
  refine ⟨nofun,?_⟩
  rintro _ ⟨-,hcommand⟩
  cases hcommand
  refine ⟨trivial,?_⟩
  rintro _ ⟨-,hanswer⟩
  cases hanswer
  refine ⟨trivial,?_⟩
  rintro _ -
  refine ⟨?_,trivial⟩
  rintro c success text rest he - -
  cases he
  decide +kernel

/-- The user's evaluation on machine 8 has the number of the condition of machine 4.
The stack of machine 4 is stored for machine 8, which runs by then. -/
def crossed : List Label :=
  [.backend (.attachState 4 true),.backend (.attachState 8 true),.backend (.sendBreak 8 (breakAt 2 4)),
   .update 0 conditional nowhere,.request (onTop 65536 .evaluate 8) calm,.backend .command,
   .backend (.sendBreak 4 (breakAt 1 4)),.update 0 conditional nowhere,.request (onTop 7 .continue 8) calm,
   .backend (.evaluated true (text "<r><t></t></r>")),.update 0 conditional nowhere,.backend .command,
   .backend (.evaluated true (text "<r><t></t></r>")),.backend .command,.backend (.wake 8),
   .request (onTop 8 .evaluate 8) calm,.backend .command]

theorem crossed_allowed : ∀ l ∈ crossed, Allowed l := by
  have hattach (L : ℕ) (h4 : L % 4 = 0) (hL : L < 2^59) : Allowed (.backend (.attachState L true)) :=
    .attachState L true ⟨h4,hL⟩
  have hbreak (L : LuaState) (reason : UInt32) : Allowed (.backend (.sendBreak L (breakAt reason 4))) :=
    .sendBreak L _ (by simp [breakAt, StopEvent.stack])
  simp only [crossed, List.forall_mem_cons, List.not_mem_nil, false_imp_iff, implies_true, and_true]
  exact ⟨hattach 4 rfl (by norm_num),hattach 8 rfl (by norm_num),hbreak 8 2,trivial,trivial,.command,
    hbreak 4 1,trivial,trivial,.evaluated _ _,trivial,.command,.evaluated _ _,.command,.wake 8,trivial,
    .command⟩

theorem crossed_runs : (crossed.foldlM step initial).isSome = true := by decide +kernel

theorem crossed_not_stopped : ¬ Along Step EvaluatesStopped initial crossed := by
  intro h
  have hend := along_runs h (runs_of_foldlM (Option.some_get crossed_runs).symm
    (fun l hl s t hs => ⟨crossed_allowed l hl,hs⟩))
  exact absurd hend (by decide +kernel)

end Vecoda.StoppedEvaluation
