import Vecoda.BreakDecision

/-!
# The course of a breakpoint

Several threads may stop at one breakpoint, and the answers to what it asks for
arrive in any order, each in the handling of another event. A stop asks for the
condition first, takes a number when that holds, and asks for the hit condition
with this number. The breakpoints are records with one counter each.
-/

set_option autoImplicit false

namespace Vecoda.HitCounts
open MessagePipe (Bytes)
open LuaText (text)
open Breakpoints (Breakpoint)
open HandleBreak
open EventStream (Root)

inductive Entry where
  | asked (expression : Bytes)
  | answered (hit : Bool)
  | counted (n : ℕ)
  | logged (output : Bytes)
  | decided (bBreak : Bool)
  deriving DecidableEq

structure Waiting where
  stop : ℕ
  callback : Bool → Bool → Root → Proc

/-- `pendingRequests` are kept under the whole number, and asked with its 32 bits. `object`
is the breakpoint of a stop, `counted` the stops that have taken a number of one. -/
structure State where
  hit : ℕ → ℕ
  evaluateId : ℕ
  pendingRequests : ℕ → Option Waiting
  commands : List ℕ
  stops : ℕ
  object : ℕ → ℕ
  log : ℕ → List Entry
  counted : ℕ → List ℕ

namespace State
variable (s : State) (stop : ℕ)

def note (e : Entry) : State := {s with log := Function.update s.log stop (s.log stop ++ [e])}

def count : State :=
  let n := s.hit (s.object stop) + 1
  {s.note stop (.counted n) with
    hit := Function.update s.hit (s.object stop) n,
    counted := Function.update s.counted (s.object stop) (s.counted (s.object stop) ++ [stop])}

def ask (expression : Bytes) (callback : Bool → Bool → Root → Proc) : State :=
  let id := (s.evaluateId+1) <<< 16
  {s.note stop (.asked expression) with
    evaluateId := s.evaluateId+1, commands := s.commands ++ [id % 2^32],
    pendingRequests := Function.update s.pendingRequests id (some ⟨stop,callback⟩)}

@[simp] theorem note_log (e : Entry) : (s.note stop e).log stop = s.log stop ++ [e] :=
  Function.update_self _ _ _

theorem note_log_ne (e : Entry) {j : ℕ} (h : j ≠ stop) : (s.note stop e).log j = s.log j :=
  Function.update_of_ne h _ _

@[simp] theorem note_hit (e : Entry) : (s.note stop e).hit = s.hit := rfl

@[simp] theorem note_object (e : Entry) : (s.note stop e).object = s.object := rfl

@[simp] theorem count_log :
    (s.count stop).log stop = s.log stop ++ [.counted (s.hit (s.object stop) + 1)] :=
  Function.update_self _ _ _

theorem count_log_ne {j : ℕ} (h : j ≠ stop) : (s.count stop).log j = s.log j :=
  Function.update_of_ne h _ _

@[simp] theorem count_counted :
    (s.count stop).counted (s.object stop) = s.counted (s.object stop) ++ [stop] :=
  Function.update_self _ _ _

theorem count_counted_ne {o : ℕ} (h : o ≠ s.object stop) : (s.count stop).counted o = s.counted o :=
  Function.update_of_ne h _ _

@[simp] theorem count_object : (s.count stop).object = s.object := rfl

@[simp] theorem count_hit : (s.count stop).hit (s.object stop) = s.hit (s.object stop) + 1 :=
  Function.update_self _ _ _

variable (expression : Bytes) (callback : Bool → Bool → Root → Proc)

theorem ask_pending : (s.ask stop expression callback).pendingRequests ((s.evaluateId+1) <<< 16) =
    some ⟨stop,callback⟩ := by
  simp only [ask, Function.update_self]

theorem ask_pending_ne {id : ℕ} (h : id ≠ (s.evaluateId+1) <<< 16) :
    (s.ask stop expression callback).pendingRequests id = s.pendingRequests id := by
  simp only [ask, note, Function.update_of_ne h]

end State

def entry : Effect → Option Entry
  | .output _ output => some (.logged output)
  | .stopped _ _ _ => some (.decided true)
  | .continue _ => some (.decided false)
  | _ => none

/-- A handler until it returns or raises. -/
def enact (stop : ℕ) : Proc → State → State × Bool
  | .done, s => (s,false)
  | .raise, s => (s,true)
  | .emit e k, s => enact stop k (match entry e with
    | some e => s.note stop e
    | none => s)
  | .setStacks _ k, s => enact stop k s
  | .hit k, s => enact stop (k (s.hit (s.object stop) + 1)) (s.count stop)
  | .evaluate expression _ _ callback, s => (s.ask stop expression callback,false)

/-- A callback is forgotten once it has returned. -/
def bpEvaulateRet (s : State) (seq : ℕ) (success : Bool) (root : Root) : State :=
  match s.pendingRequests seq with
  | none => s
  | some w =>
    match if success then toboolean root else .ok false with
    | .error _ => s
    | .ok hit =>
      match enact w.stop (w.callback hit success root) (s.note w.stop (.answered hit)) with
      | (s,true) => s
      | (s,false) => {s with pendingRequests := Function.update s.pendingRequests seq none}

structure Decision where
  nvm : ℕ
  stackFrames : List StackFrame
  reason : UInt32
  bp : Option Breakpoint

def Decision.callback (d : Decision) : Bool → Proc :=
  breakOrContinue d.nvm d.stackFrames d.reason d.bp

/-- A stop at a breakpoint, or the answer to one of the commands that are out. -/
inductive Label where
  | stop (object frameId : ℕ) (d : Decision)
  | answer (i : ℕ) (success : Bool) (root : Root)

section Steps

variable (objects : ℕ → Breakpoint)

def step (s : State) : Label → Option State
  | .stop object frameId d =>
    some (enact s.stops (exec (objects object) frameId d.callback)
      {s with stops := s.stops+1, object := Function.update s.object s.stops object}).1
  | .answer i success root => s.commands[i]?.map (fun seq =>
      bpEvaulateRet {s with commands := s.commands.eraseIdx i} seq success root)

end Steps

def start : State := ⟨fun _ => 0,0,fun _ => none,[],0,fun _ => 0,fun _ => [],fun _ => []⟩

section Course

variable (bp : Breakpoint)

def passed : Option Bytes → List Entry
  | none => []
  | some expression => [.asked expression,.answered true]

def hitExpression (n : ℕ) : Option Bytes :=
  bp.hitCondition.map (fun hitCondition => text (toString n) ++ text " " ++ hitCondition)

def Asking (e : Entry) : Prop := (∃ expression, e = .asked expression) ∨ ∃ hit, e = .answered hit

def reached (n : ℕ) : List Entry := passed bp.condition ++ .counted n :: passed (hitExpression bp n)

inductive Course : List Entry → Prop where
  | conditionAsked (c : Bytes) : bp.condition = some c → Course [.asked c]
  | conditionFailed (c : Bytes) : bp.condition = some c →
      Course [.asked c,.answered false,.decided false]
  | hitConditionAsked (n : ℕ) (c : Bytes) : hitExpression bp n = some c →
      Course (passed bp.condition ++ [.counted n,.asked c])
  | hitConditionFailed (n : ℕ) (c : Bytes) : hitExpression bp n = some c →
      Course (passed bp.condition ++ [.counted n,.asked c,.answered false,.decided false])
  | stopped (n : ℕ) : bp.statLog = none → Course (reached bp n ++ [.decided true])
  | logging (n : ℕ) (es : List Entry) : bp.statLog.isSome = true → (∀ e ∈ es, Asking e) →
      Course (reached bp n ++ es)
  | logged (n : ℕ) (es : List Entry) (output : Bytes) :
      bp.statLog.isSome = true → (∀ e ∈ es, Asking e) →
      Course (reached bp n ++ es ++ [.logged output,.decided false])

end Course

section Following

inductive Ending where
  | returned
  | raised
  | waits (callback : Bool → Bool → Root → Proc)

/-- The entries that a handler adds, `n` stops having been counted, and how it ends. -/
def follow (n : ℕ) : Proc → List Entry → List Entry × Ending
  | .done, es => (es,.returned)
  | .raise, es => (es,.raised)
  | .emit e k, es => follow n k (match entry e with
    | some e => es ++ [e]
    | none => es)
  | .setStacks _ k, es => follow n k es
  | .hit k, es => follow (n+1) (k (n+1)) (es ++ [.counted (n+1)])
  | .evaluate expression _ _ callback, es => (es ++ [.asked expression],.waits callback)

inductive Logs : Proc → Prop where
  | raise : Logs .raise
  | evaluate (expression : Bytes) (t l : ℕ) (callback : Bool → Bool → Root → Proc) :
      (∀ hit success root, Logs (callback hit success root)) →
          Logs (.evaluate expression t l callback)
  | output (category output : Bytes) (d : Decision) :
      Logs (.emit (.output category output) (d.callback false))

inductive Ready (bp : Breakpoint) : List Entry → (Bool → Bool → Root → Proc) → Prop where
  | condition (c : Bytes) (t l : ℕ) (d : Decision) : bp.condition = some c →
      Ready bp [.asked c] (fun hit _ _ => if !hit then d.callback false
          else checkHitCondition bp t l d.callback)
  | hitCondition (n : ℕ) (c : Bytes) (t l : ℕ) (d : Decision) : hitExpression bp n = some c →
      Ready bp (passed bp.condition ++ [.counted n,.asked c])
        (fun hit _ _ => if !hit then d.callback false else checkStatLog bp t l d.callback)
  | log (n : ℕ) (es : List Entry) (callback : Bool → Bool → Root → Proc) :
      bp.statLog.isSome = true →
      (∀ e ∈ es, Asking e) →
      (∀ hit success root, Logs (callback hit success root)) →
          Ready bp (reached bp n ++ es) callback

/-- The course of a stop after a handler. -/
structure Good (bp : Breakpoint) (r : List Entry × Ending) : Prop where
  course : Course bp r.1
  decided : r.2 = .returned → ∃ bBreak, .decided bBreak ∈ r.1
  ready : ∀ callback, r.2 = .waits callback → Ready bp r.1 callback

variable {bp : Breakpoint}

theorem logs_message (stats : List (Bytes × Bytes)) (t l : ℕ) (d : Decision) (before rest : Bytes) :
    Logs (processStatLogSequentially stats t l
      (fun result => .emit (.output (text "stdout") result) (d.callback false)) before rest) := by
  induction rest using BreakDecision.logStats.induct stats generalizing before with
  | case1 rest hfind =>
    rw [BreakDecision.log_none hfind]
    exact .output _ _ d
  | case2 rest skipped key after hfind hstat ih =>
    rw [BreakDecision.log_skip hfind hstat]
    exact ih _
  | case3 rest skipped key after hfind stat hstat ih =>
    rw [BreakDecision.log_ask hfind hstat]
    refine .evaluate _ _ _ _ fun hit success root => ?_
    split
    · split
      · exact ih _
      · exact .raise
    · exact ih _

theorem asking_snoc {es : List Entry} (h : ∀ e ∈ es, Asking e) {e : Entry} (he : Asking e) :
    ∀ e' ∈ es ++ [e], Asking e' :=
  List.forall_mem_append.mpr ⟨h,List.forall_mem_singleton.mpr he⟩

theorem good_log (n m : ℕ) {es : List Entry} (hlog : bp.statLog.isSome = true)
    (hes : ∀ e ∈ es, Asking e)
    {p : Proc} (hp : Logs p) : Good bp (follow m p (reached bp n ++ es)) := by
  cases hp with
  | raise => exact ⟨.logging n es hlog hes,(fun h => by cases h),fun _ h => by cases h⟩
  | evaluate expression t l callback hcallback =>
    have hnext := asking_snoc hes (.inl ⟨expression,rfl⟩)
    rw [follow, List.append_assoc]
    refine ⟨.logging n _ hlog hnext,(fun h => by cases h),fun cb hcb => ?_⟩
    cases hcb
    exact .log n _ callback hlog hnext hcallback
  | output category output d =>
    have hfollow :
        follow m (.emit (.output category output) (d.callback false)) (reached bp n ++ es) =
        (reached bp n ++ es ++ [.logged output,.decided false],.returned) := by
      simp [follow, entry, Decision.callback, breakOrContinue]
    rw [hfollow]
    exact ⟨.logged n es output hlog hes,fun _ => ⟨false,by simp⟩,fun _ h => by cases h⟩

theorem good_checkStatLog (n m t l : ℕ) (d : Decision) :
    Good bp (follow m (checkStatLog bp t l d.callback) (reached bp n)) := by
  rw [checkStatLog]
  cases hlog : bp.statLog with
  | none =>
    have hfollow : follow m (d.callback true) (reached bp n) =
        (reached bp n ++ [.decided true],.returned) := by
      simp [follow, entry, Decision.callback, breakOrContinue]
    rw [hfollow]
    exact ⟨.stopped n hlog,fun _ => ⟨true,by simp⟩,fun _ h => by cases h⟩
  | some log =>
    have hsome : bp.statLog.isSome = true := by rw [hlog]; rfl
    have hgood := good_log n m hsome (List.forall_mem_nil _)
      (logs_message log.stats t l d [] log.template)
    rwa [List.append_nil] at hgood

theorem good_checkHitCondition (m t l : ℕ) (d : Decision) :
    Good bp (follow m (checkHitCondition bp t l d.callback) (passed bp.condition)) := by
  rw [checkHitCondition, follow]
  cases hhit : bp.hitCondition with
  | none =>
    have hreached : passed bp.condition ++ [.counted (m+1)] = reached bp (m+1) := by
      rw [reached, hitExpression, hhit, Option.map_none, passed]
    rw [hreached]
    exact good_checkStatLog (m+1) (m+1) t l d
  | some hitCondition =>
    have hexpression :
        hitExpression bp (m+1) = some (text (toString (m+1)) ++ text " " ++ hitCondition) := by
      rw [hitExpression, hhit, Option.map_some]
    rw [follow, List.append_assoc]
    refine ⟨.hitConditionAsked _ _ hexpression,(fun h => by cases h),fun cb hcb => ?_⟩
    cases hcb
    exact .hitCondition _ _ t l d hexpression

theorem good_exec (m frameId : ℕ) (d : Decision) :
    Good bp (follow m (exec bp frameId d.callback) []) := by
  rw [exec, checkCondition]
  cases hcondition : bp.condition with
  | none =>
    have hpassed : passed bp.condition = [] := by rw [hcondition, passed]
    rw [← hpassed]
    exact good_checkHitCondition m _ _ d
  | some c =>
    refine ⟨.conditionAsked c hcondition,(fun h => by cases h),fun cb hcb => ?_⟩
    cases hcb
    exact .condition c _ _ d hcondition

theorem follow_continue (m : ℕ) (d : Decision) (es : List Entry) :
    follow m (d.callback false) es = (es ++ [.decided false],.returned) := rfl

/-- An answer moves its stop on. -/
theorem good_answered {es : List Entry} {callback : Bool → Bool → Root → Proc}
    (h : Ready bp es callback)
    (m : ℕ) (hit success : Bool) (root : Root) :
    Good bp (follow m (callback hit success root) (es ++ [.answered hit])) := by
  cases h with
  | condition c t l d hc =>
    cases hit with
    | false =>
      exact ⟨.conditionFailed c hc,fun _ => ⟨false,by simp [follow_continue]⟩,fun _ h => by cases h⟩
    | true =>
      have hpassed : [.asked c] ++ [.answered true] = passed bp.condition := by rw [hc, passed]; rfl
      rw [hpassed]
      exact good_checkHitCondition m t l d
  | hitCondition n c t l d hc =>
    cases hit with
    | false =>
      have hentries :
          passed bp.condition ++ [.counted n,.asked c] ++ [.answered false] ++ [.decided false] =
          passed bp.condition ++ [.counted n,.asked c,.answered false,.decided false] := by
        simp
      have hcourse := Course.hitConditionFailed n c hc
      rw [← hentries] at hcourse
      exact ⟨hcourse,fun _ => ⟨false,by simp [follow_continue]⟩,fun _ h => by cases h⟩
    | true =>
      have hreached : passed bp.condition ++ [.counted n,.asked c] ++ [.answered true] =
          reached bp n := by
        rw [reached, hc, passed, List.append_assoc]
        rfl
      rw [hreached]
      exact good_checkStatLog n m t l d
  | log n es callback hlog hes hcallback =>
    rw [List.append_assoc]
    exact good_log n m hlog (asking_snoc hes (.inr ⟨hit,rfl⟩)) (hcallback hit success root)

end Following

section Enacting

variable {s : State} {k : ℕ}

structure Enacted (k : ℕ) (s : State) (r : State × Bool) (f : List Entry × Ending) : Prop where
  stops : r.1.stops = s.stops
  object : r.1.object = s.object
  others : ∀ j, j ≠ k → r.1.log j = s.log j
  log : r.1.log k = f.1
  raised : r.2 = true ↔ f.2 = .raised
  queued : match f.2 with
    | .waits callback =>
        r.1.evaluateId = s.evaluateId + 1 ∧
        r.1.commands = s.commands ++ [((s.evaluateId+1) <<< 16) % 2^32] ∧
        r.1.pendingRequests =
          Function.update s.pendingRequests ((s.evaluateId+1) <<< 16) (some ⟨k,callback⟩)
    | _ => r.1.evaluateId = s.evaluateId ∧ r.1.commands = s.commands ∧
        r.1.pendingRequests = s.pendingRequests

/-- A step that adds an entry, and then the rest. -/
theorem enacted_note {t : State} {r : State × Bool} {f : List Entry × Ending} (h : Enacted k t r f)
    (hstops : t.stops = s.stops) (hobject : t.object = s.object)
    (hothers : ∀ j, j ≠ k → t.log j = s.log j)
    (hid : t.evaluateId = s.evaluateId) (hcommands : t.commands = s.commands)
    (hpending : t.pendingRequests = s.pendingRequests) : Enacted k s r f where
  stops := h.stops.trans hstops
  object := h.object.trans hobject
  others j hj := (h.others j hj).trans (hothers j hj)
  log := h.log
  raised := h.raised
  queued := by
    have hqueued := h.queued
    rw [hid, hcommands, hpending] at hqueued
    exact hqueued

theorem enact_follow (k : ℕ) (p : Proc) (s : State) :
    Enacted k s (enact k p s) (follow (s.hit (s.object k)) p (s.log k)) := by
  induction p generalizing s with
  | done => exact ⟨rfl,rfl,fun _ _ => rfl,rfl,iff_of_false Bool.false_ne_true (fun h => by cases h),
      rfl,rfl,rfl⟩
  | raise => exact ⟨rfl,rfl,fun _ _ => rfl,rfl,iff_of_true rfl rfl,rfl,rfl,rfl⟩
  | emit e p ih =>
    rw [enact, follow]
    cases entry e with
    | none => exact ih s
    | some e =>
      have hnote := ih (s.note k e)
      rw [State.note_log, State.note_hit, State.note_object] at hnote
      exact enacted_note hnote rfl rfl (fun _ hj => State.note_log_ne s k e hj) rfl rfl rfl
  | setStacks stackFrames p ih => exact ih s
  | hit p ih =>
    have hcount := ih (s.hit (s.object k) + 1) (s.count k)
    rw [enact, follow]
    rw [State.count_log, State.count_object, State.count_hit] at hcount
    exact enacted_note hcount rfl rfl (fun _ hj => State.count_log_ne s k hj) rfl rfl rfl
  | evaluate expression t l callback ih =>
    refine ⟨rfl,rfl,fun _ hj => State.note_log_ne s k _ hj,State.note_log s k _,?_,rfl,rfl,rfl⟩
    exact iff_of_false Bool.false_ne_true (fun h => by cases h)

end Enacting

theorem enact_evaluateId (k : ℕ) (p : Proc) (s : State) :
    s.evaluateId ≤ (enact k p s).1.evaluateId := by
  have hqueued := (enact_follow k p s).queued
  split at hqueued
  · rw [hqueued.1]
    exact Nat.le_succ _
  · rw [hqueued.1]

end Vecoda.HitCounts
