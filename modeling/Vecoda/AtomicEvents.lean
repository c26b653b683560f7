import Mathlib.Data.List.Induction
import Vecoda.EventStream
import Vecoda.Ownership
import Vecoda.Transitions

/-!
# Events on the event channel

An event is written message by message, by threads that hold m_criticalSection,
only m_breakLock, or no lock at all. The locks keep the events apart that are
written in m_criticalSection, and the two that report an error. The channel
carries whole events one after the other exactly as long as what is written
outside of m_criticalSection meets no other event.
-/

set_option autoImplicit false

namespace Vecoda.AtomicEvents
open MessagePipe (Bytes)
open Channel EventStream Ownership Transitions

section Emissions

variable {p : PointerSize}

inductive Emission (p : PointerSize) where
  | attachState (vm : Handle p)
  | detachState (vm : Handle p)
  | registerScript (vm : Handle p) (fileName source : CString) (state : UInt32)
  | toggleBreakpoint (vm : Handle p) (scriptIndex line set : UInt32)
  | message (vm : Handle p) (type : UInt32) (message : CString)
  | hookCallback (vm : Handle p) (name : CString)
  | sendBreakEvent (vm : Handle p) (stack : BreakStack)
  | postLoadScript (vm : Handle p) (message : CString)
  | sendExceptionEvent (vm : Handle p) (message : CString)
  | evaluate (vm : Handle p) (reqId stackLevel : UInt32) (success : Bool) (result : CString)
  | expandTable (vm : Handle p) (reqId stackLevel : UInt32) (success : Bool) (result : CString)
      (reference : UInt32)

def faultWrites (kind : Fault) (vm : Handle p) (message : CString) : List Bytes :=
  header kind.id vm ++ writeString message.bytes

def Emission.writes : Emission p → List Bytes
  | attachState vm => (Event.createVM vm).writes
  | detachState vm => (Event.destroyVM vm).writes
  | registerScript vm fileName source state => (Event.loadScript vm fileName source state).writes
  | toggleBreakpoint vm scriptIndex line set => (Event.setBreakpoint vm scriptIndex line set).writes
  | .message vm type content => (Event.message vm type content).writes
  | hookCallback vm name => (Event.nameVM vm name).writes
  | sendBreakEvent vm stack => (Event.break vm stack).writes
  | postLoadScript vm content => faultWrites .loadError vm content
  | sendExceptionEvent vm content => faultWrites .exception vm content
  | evaluate vm reqId stackLevel success result =>
      (Event.evaluateRet vm reqId stackLevel success result).writes
  | expandTable vm reqId stackLevel success result reference =>
      (Event.expandTableRet vm reqId stackLevel success result reference).writes

/-- The emissions that the reader takes for one event. -/
def emissions : Event p → List (Emission p)
  | .createVM vm => [.attachState vm]
  | .destroyVM vm => [.detachState vm]
  | .loadScript vm fileName source state => [.registerScript vm fileName source state]
  | .setBreakpoint vm scriptIndex line set => [.toggleBreakpoint vm scriptIndex line set]
  | .message vm type content => [.message vm type content]
  | .nameVM vm name => [.hookCallback vm name]
  | .break vm stack => [.sendBreakEvent vm stack]
  | .evaluateRet vm reqId stackLevel success result => [.evaluate vm reqId stackLevel success result]
  | .expandTableRet vm reqId stackLevel success result reference =>
      [.expandTable vm reqId stackLevel success result reference]
  | .fault .loadError vm content stack => [.postLoadScript vm content,.sendBreakEvent vm stack]
  | .fault .exception vm content stack => [.sendExceptionEvent vm content,.sendBreakEvent vm stack]

theorem writes_emissions (e : Event p) : (emissions e).flatMap Emission.writes = e.writes := by
  cases e with
  | fault kind vm content stack =>
    cases kind <;> simp [emissions, Emission.writes, faultWrites, Event.writes]
  | _ => simp [emissions, Emission.writes]

/-- The callers in m_criticalSection; a message is written by callers of either kind. -/
def Emission.critical : Emission p → Bool
  | .message _ _ _ => false
  | sendExceptionEvent _ _ => false
  | evaluate _ _ _ _ _ => false
  | expandTable _ _ _ _ _ _ => false
  | _ => true

def Emission.breaking : Emission p → Bool
  | postLoadScript _ _ => true
  | sendExceptionEvent _ _ => true
  | _ => false

def Emission.commanded : Emission p → Bool
  | toggleBreakpoint _ _ _ _ => true
  | evaluate _ _ _ _ _ => true
  | expandTable _ _ _ _ _ _ => true
  | _ => false

def numbered (es : List (Emission p)) : List (ℕ × Bytes) :=
  es.zipIdx.flatMap (fun e => e.1.writes.map (fun w => (e.2,w)))

theorem numbered_concat (es : List (Emission p)) (e : Emission p) :
    numbered (es ++ [e]) = numbered es ++ e.writes.map (fun w => (es.length,w)) := by
  simp [numbered, List.zipIdx_append]

theorem map_numbered (es : List (Emission p)) :
    (numbered es).map Prod.snd = es.flatMap Emission.writes := by
  induction es using List.reverseRecOn with
  | nil => rfl
  | append_singleton es e ih =>
    rw [numbered_concat, List.map_append, ih, List.map_map]
    simp [Function.comp_def]

end Emissions

/-- A thread with its locks, and the event it is in: its number, and what is left of it. -/
structure Thread where
  critical : Bool
  breaking : Bool
  writing : Option (ℕ × List Bytes)
  deriving DecidableEq, Repr

structure State (p : PointerSize) where
  criticalSection : Option ℕ
  breakLock : Option ℕ
  threads : ℕ → Thread
  started : List (Emission p)
  channel : List (ℕ × Bytes)

/-- The locks are entered from outside, and left by the outermost exit. -/
inductive Label (p : PointerSize) where
  | enterCriticalSection (t : ℕ)
  | exitCriticalSection (t : ℕ)
  | enterBreakLock (t : ℕ)
  | exitBreakLock (t : ℕ)
  | emit (t : ℕ) (e : Emission p)
  | write (t : ℕ)

variable {p : PointerSize}

def locked (thread : Thread) (e : Emission p) : Bool :=
  (!e.critical || thread.critical) && (!e.breaking || thread.breaking)

def mayEmit (t : ℕ) (thread : Thread) (e : Emission p) : Bool :=
  thread.writing.isNone && locked thread e && (!e.commanded || t = 0)

def remaining (number : ℕ) (ws : List Bytes) : Option (ℕ × List Bytes) :=
  if ws = [] then none else some (number,ws)

def put (s : State p) (t : ℕ) (thread : Thread) : ℕ → Thread := Function.update s.threads t thread

def step (s : State p) : Label p → Option (State p)
  | .enterCriticalSection t =>
    if canEnter s.criticalSection t && (s.threads t).writing.isNone then
      some {s with criticalSection := some t, threads := put s t {s.threads t with critical := true}}
    else none
  | .exitCriticalSection t =>
    if (s.threads t).critical && (s.threads t).writing.isNone then
      some {s with criticalSection := none, threads := put s t {s.threads t with critical := false}}
    else none
  | .enterBreakLock t =>
    if canEnter s.breakLock t && (s.threads t).writing.isNone then
      some {s with breakLock := some t, threads := put s t {s.threads t with breaking := true}}
    else none
  | .exitBreakLock t =>
    if (s.threads t).breaking && (s.threads t).writing.isNone then
      some {s with breakLock := none, threads := put s t {s.threads t with breaking := false}}
    else none
  | .emit t e =>
    match mayEmit t (s.threads t) e, e.writes with
    | true, w::ws =>
      some {s with
        started := s.started ++ [e], channel := s.channel ++ [(s.started.length,w)],
        threads := put s t {s.threads t with writing := remaining s.started.length ws}}
    | _, _ => none
  | .write t =>
    match (s.threads t).writing with
    | some (number,w::ws) =>
      some {s with
        channel := s.channel ++ [(number,w)],
        threads := put s t {s.threads t with writing := remaining number ws}}
    | _ => none

def Step (s : State p) (l : Label p) (s' : State p) : Prop := step s l = some s'

def initial : State p := ⟨none,none,fun _ => ⟨false,false,none⟩,[],[]⟩

/-- The messages are those of the events in the order of their beginnings, one event
after the other; only the last one may be unfinished. Once nobody writes, the reader finds
the stream of whole events. -/
structure Atomic (s : State p) : Prop where
  ordered : s.channel <+: numbered s.started
  whole (h : ∀ t, (s.threads t).writing = none) (es : List (Event p))
    (hes : s.started = es.flatMap emissions) : s.channel.map Prod.snd = stream es

/-- What Message, the command thread's answers and SendExceptionEvent write while their thread is
not in m_criticalSection. -/
def outside (thread : Thread) : Emission p → Bool
  | .message _ _ _ => !thread.critical
  | .evaluate _ _ _ _ _ => !thread.critical
  | .expandTable _ _ _ _ _ _ => !thread.critical
  | .sendExceptionEvent _ _ => !thread.critical
  | _ => false

def reports : Emission p → Bool
  | .postLoadScript _ _ => true
  | .sendExceptionEvent _ _ => true
  | _ => false

/-- Nothing is written outside of m_criticalSection while another thread is in an event, but for
one report of an error and another. -/
def Guarded (s : State p) : Label p → Prop
  | .emit t e => ∀ u, u ≠ t → ∀ n ws e', (s.threads u).writing = some (n,ws) →
      s.started[n]? = some e' → (outside (s.threads t) e || outside (s.threads u) e') = true →
      reports e = true ∧ reports e' = true
  | _ => True

structure Serial (s : State p) : Prop where
  critical : Owned Thread.critical s.criticalSection s.threads
  breaking : Owned Thread.breaking s.breakLock s.threads
  idle : (∀ t, (s.threads t).writing = none) → s.channel = numbered s.started
  busy : ∀ t n ws, (s.threads t).writing = some (n,ws) →
    ws ≠ [] ∧ n+1 = s.started.length ∧
    s.channel ++ ws.map (fun w => (n,w)) = numbered s.started ∧
    ∀ u, (s.threads u).writing.isSome = true → u = t
  held : ∀ t n ws, (s.threads t).writing = some (n,ws) →
    ∃ e, s.started[n]? = some e ∧ locked (s.threads t) e = true

section Serial

variable {s s' : State p} {t : ℕ}

theorem critical_of_inside {thread : Thread} {e : Emission p} (hl : locked thread e = true)
    (ho : outside thread e = false) : thread.critical = true := by
  rw [locked, Bool.and_eq_true] at hl
  cases e with
  | message => simpa [outside] using ho
  | evaluate => simpa [outside] using ho
  | expandTable => simpa [outside] using ho
  | sendExceptionEvent => simpa [outside] using ho
  | _ => exact hl.1

theorem breaking_of_reports {thread : Thread} {e : Emission p} (hl : locked thread e = true)
    (hr : reports e = true) : thread.breaking = true := by
  rw [locked, Bool.and_eq_true] at hl
  cases e with
  | postLoadScript => exact hl.2
  | sendExceptionEvent => exact hl.2
  | _ => cases hr

/-- Once nobody writes, the reader finds the messages of whole events. -/
theorem stream_of_serial (h : Serial s) (hidle : ∀ t, (s.threads t).writing = none) (es : List (Event p))
    (hes : s.started = es.flatMap emissions) : s.channel.map Prod.snd = stream es := by
  rw [h.idle hidle, map_numbered, hes, List.flatMap_assoc, stream]
  congr 1
  funext e
  exact writes_emissions e

theorem atomic_of_serial (s : State p) (h : Serial s) : Atomic s := by
  refine ⟨?_,stream_of_serial h⟩
  by_cases hidle : ∀ t, (s.threads t).writing = none
  · exact ⟨[],by rw [h.idle hidle, List.append_nil]⟩
  · obtain ⟨t,ht⟩ := not_forall.mp hidle
    obtain ⟨⟨n,ws⟩,hw⟩ := Option.ne_none_iff_exists'.mp ht
    obtain ⟨-,-,hchannel,-⟩ := h.busy t n ws hw
    exact ⟨_,hchannel⟩

/-- A lock changes hands; the events stay as they are. -/
theorem serial_locks (h : Serial s) {criticalSection breakLock : Option ℕ} {thread : Thread}
    (hw : thread.writing = (s.threads t).writing) (hidle : (s.threads t).writing = none)
    (hc : Owned Thread.critical criticalSection (put s t thread))
    (hb : Owned Thread.breaking breakLock (put s t thread)) :
    Serial {s with criticalSection := criticalSection, breakLock := breakLock, threads := put s t thread} := by
  have hwriting (u : ℕ) : (put s t thread u).writing = (s.threads u).writing := by
    unfold put
    by_cases hu : u = t
    · rw [hu, Function.update_self, hw]
    · rw [Function.update_of_ne hu]
  refine ⟨hc,hb,fun hnone => h.idle (fun u => hwriting u ▸ hnone u),fun u n ws hu => ?_,fun u n ws hu => ?_⟩
  · obtain ⟨hne,hn,hchannel,honly⟩ := h.busy u n ws (hwriting u ▸ hu)
    exact ⟨hne,hn,hchannel,fun v hv => honly v (hwriting v ▸ hv)⟩
  · have hut : u ≠ t := by
      rintro rfl
      have hsome := hwriting u ▸ hu
      rw [hidle] at hsome
      cases hsome
    obtain ⟨e,he,hl⟩ := h.held u n ws (hwriting u ▸ hu)
    refine ⟨e,he,?_⟩
    change locked (put s t thread u) e = true
    rw [put, Function.update_of_ne hut]
    exact hl

/-- A thread writes a message of the last event, while no other one is in an event. -/
theorem serial_written (h : Serial s) {started : List (Emission p)} {n : ℕ} {w : Bytes} {ws : List Bytes}
    (hn : n+1 = started.length) {e : Emission p} (he : started[n]? = some e)
    (hl : locked (s.threads t) e = true)
    (hchannel : s.channel ++ ((n,w) :: ws.map (fun w => (n,w))) = numbered started)
    (halone : ∀ u, u ≠ t → (s.threads u).writing = none) :
    Serial {s with
      started := started, channel := s.channel ++ [(n,w)],
      threads := put s t {s.threads t with writing := remaining n ws}} := by
  have hlocks {f : Thread → Bool} {owner : Option ℕ} (ho : Owned f owner s.threads)
      (hf : f {s.threads t with writing := remaining n ws} = f (s.threads t)) :
      Owned f owner (put s t {s.threads t with writing := remaining n ws}) :=
    owned_passes ho (.keep _ hf)
  have hother (u : ℕ) (hu : u ≠ t) :
      (put s t {s.threads t with writing := remaining n ws} u).writing = none := by
    unfold put
    rw [Function.update_of_ne hu]
    exact halone u hu
  have hself : (put s t {s.threads t with writing := remaining n ws} t).writing = remaining n ws := by
    rw [put, Function.update_self]
  have hwriter {u m : ℕ} {ms : List Bytes}
      (hu : (put s t {s.threads t with writing := remaining n ws} u).writing = some (m,ms)) : u = t := by
    by_contra hne
    rw [hother u hne] at hu
    cases hu
  refine ⟨hlocks h.critical rfl,hlocks h.breaking rfl,fun hidle => ?_,fun u m ms hu => ?_,fun u m ms hu => ?_⟩
  · have hnone : ws = [] := by
      have hleft := hidle t
      dsimp only at hleft
      rw [hself, remaining] at hleft
      split at hleft
      · assumption
      · cases hleft
    rw [← hchannel, hnone]
    rfl
  · have hut := hwriter hu
    rw [hut] at hu
    dsimp only at hu
    rw [hself, remaining] at hu
    split at hu
    · cases hu
    · rename_i hws
      cases hu
      refine ⟨hws,hn,by simpa using hchannel,fun v hv => ?_⟩
      by_contra hne
      have hvt : v ≠ t := fun he => hne (he.trans hut.symm)
      dsimp only at hv
      rw [hother v hvt] at hv
      cases hv
  · obtain rfl := hwriter hu
    dsimp only at hu
    rw [hself, remaining] at hu
    split at hu
    · cases hu
    · cases hu
      refine ⟨e,he,?_⟩
      change locked (put s u {s.threads u with writing := remaining n ws} u) e = true
      rw [put, Function.update_self]
      exact hl

/-- Whoever is in an event meanwhile would hold the same lock. -/
theorem alone_of_guarded (h : Serial s) {e : Emission p} (hl : locked (s.threads t) e = true)
    (hg : Guarded s (.emit t e)) : ∀ u, u ≠ t → (s.threads u).writing = none := by
  intro u hu
  rw [← Option.not_isSome_iff_eq_none, Option.isSome_iff_exists]
  rintro ⟨⟨n,ws⟩,hw⟩
  obtain ⟨e',he',hl'⟩ := h.held u n ws hw
  cases ho : outside (s.threads t) e || outside (s.threads u) e' with
  | true =>
    obtain ⟨hr,hr'⟩ := hg u hu n ws e' hw he' ho
    exact hu (holder_unique h.breaking (breaking_of_reports hl' hr') (breaking_of_reports hl hr))
  | false =>
    rw [Bool.or_eq_false_iff] at ho
    exact hu (holder_unique h.critical (critical_of_inside hl' ho.2) (critical_of_inside hl ho.1))

theorem serial_step (s : State p) (l : Label p) (s' : State p) (h : Serial s) (hs : Step s l s')
    (hg : Guarded s l) : Serial s' := by
  cases l with
  | enterCriticalSection t =>
    simp only [Step, step] at hs
    split at hs
    · rename_i hguard
      cases hs
      rw [Bool.and_eq_true, Option.isNone_iff_eq_none] at hguard
      exact serial_locks h rfl hguard.2 (owned_passes h.critical (.enter _ hguard.1 rfl))
        (owned_passes h.breaking (.keep _ rfl))
    · cases hs
  | exitCriticalSection t =>
    simp only [Step, step] at hs
    split at hs
    · rename_i hguard
      cases hs
      rw [Bool.and_eq_true, Option.isNone_iff_eq_none] at hguard
      exact serial_locks h rfl hguard.2 (owned_passes h.critical (.exit _ hguard.1 rfl))
        (owned_passes h.breaking (.keep _ rfl))
    · cases hs
  | enterBreakLock t =>
    simp only [Step, step] at hs
    split at hs
    · rename_i hguard
      cases hs
      rw [Bool.and_eq_true, Option.isNone_iff_eq_none] at hguard
      exact serial_locks h rfl hguard.2 (owned_passes h.critical (.keep _ rfl))
        (owned_passes h.breaking (.enter _ hguard.1 rfl))
    · cases hs
  | exitBreakLock t =>
    simp only [Step, step] at hs
    split at hs
    · rename_i hguard
      cases hs
      rw [Bool.and_eq_true, Option.isNone_iff_eq_none] at hguard
      exact serial_locks h rfl hguard.2 (owned_passes h.critical (.keep _ rfl))
        (owned_passes h.breaking (.exit _ hguard.1 rfl))
    · cases hs
  | emit t e =>
    simp only [Step, step] at hs
    split at hs
    · rename_i w ws hmay hwrites
      cases hs
      simp only [mayEmit, Bool.and_eq_true, Option.isNone_iff_eq_none] at hmay
      obtain ⟨⟨hself,hl⟩,-⟩ := hmay
      have halone := alone_of_guarded h hl hg
      have hidle : s.channel = numbered s.started := by
        refine h.idle (fun u => ?_)
        by_cases hu : u = t
        · rw [hu, hself]
        · exact halone u hu
      refine serial_written h (by simp) (e := e) (by simp) hl ?_ halone
      rw [numbered_concat, ← hidle, hwrites]
      rfl
    · cases hs
  | write t =>
    simp only [Step, step] at hs
    split at hs
    · rename_i n w ws hwriting
      cases hs
      obtain ⟨-,hn,hchannel,honly⟩ := h.busy t n (w::ws) hwriting
      obtain ⟨e,he,hl⟩ := h.held t n (w::ws) hwriting
      refine serial_written h hn he hl hchannel (fun u hu => ?_)
      rw [← Option.not_isSome_iff_eq_none]
      exact fun hw => hu (honly u hw)
    · cases hs

/-- The first message of the event stands where the other event goes on. -/
theorem not_atomic_step (s : State p) (l : Label p) (s' : State p) (h : Serial s) (hs : Step s l s')
    (hg : ¬ Guarded s l) : ¬ Atomic s' := by
  cases l with
  | emit t e =>
    simp only [Guarded, not_forall] at hg
    obtain ⟨u,-,n,ws,e',hw,-⟩ := hg
    obtain ⟨hne,hn,hchannel,-⟩ := h.busy u n ws hw
    obtain ⟨v,vs,rfl⟩ := List.exists_cons_of_ne_nil hne
    simp only [Step, step] at hs
    split at hs
    · cases hs
      rintro ⟨⟨tail,htail⟩,-⟩
      dsimp only at htail
      rw [numbered_concat, ← hchannel, List.append_assoc, List.append_assoc] at htail
      have hhead := List.append_cancel_left htail
      rw [List.map_cons, List.cons_append, List.cons_append] at hhead
      have hnumber : s.started.length = n := congrArg Prod.fst (List.cons.inj hhead).1
      omega
    · cases hs
  | _ => exact absurd trivial hg

end Serial

theorem serial_initial : Serial (initial : State p) :=
  ⟨fun _ => ⟨nofun,nofun⟩,fun _ => ⟨nofun,nofun⟩,fun _ => rfl,nofun,nofun⟩

/-- The channel carries whole events along a run exactly when what is written outside of
m_criticalSection meets no other event. -/
theorem atomic_along_iff (labels : List (Label p)) :
    Along Step Atomic initial labels ↔ Meets Step Guarded initial labels :=
  along_iff_meets atomic_of_serial serial_step not_atomic_step initial labels serial_initial

def warned : List (Label .x86) :=
  [.enterCriticalSection 1,.emit 1 (.registerScript 1 ⟨[],List.not_mem_nil⟩ ⟨[],List.not_mem_nil⟩ 0),
   .emit 2 (.message 0 1 ⟨[],List.not_mem_nil⟩)]

theorem warned_not_atomic : ¬ Along Step Atomic initial warned := by
  intro h
  have hend := along_start (((h.2 _ rfl).2 _ rfl).2 _ rfl)
  exact absurd hend.ordered (by decide)

end Vecoda.AtomicEvents
