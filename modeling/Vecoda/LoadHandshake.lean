import Vecoda.Files
import Vecoda.Resuming
import Vecoda.BreakpointSync

/-!
# The load handshake

A thread that has registered a script waits on m_loadEvent, so that the adapter
can set the breakpoints of the script before its first line is run. The event
resets itself, and all threads share it. Every announcement has a number here;
the toggles and the LoadDone that answer it carry the same number.
-/

set_option autoImplicit false

namespace Vecoda.LoadHandshake
open MessagePipe (Bytes)
open LuaText (text)
open Backend Files Breakpoints Transitions

inductive Phase where
  | running
  | announced (number : ℕ)
  | waiting (number : ℕ)
  deriving DecidableEq, Repr

def Phase.number : Phase → Option ℕ
  | .running => none
  | .announced number => some number
  | .waiting number => some number

structure LoadScript where
  vm : LuaState
  fileName : Bytes
  source : Bytes
  state : CodeState
  number : ℕ

inductive Instruction where
  | toggleBreakpoint (scriptIndex : ℕ) (line : UInt32) (load : Option ℕ)
  | loadDone (vm : LuaState) (load : ℕ)
  | detach (continueRunning : Bool)
  | other (commandId : ℕ)
  deriving DecidableEq, Repr

inductive CommandThread where
  | reading
  | detached
  | connected
  | ended
  deriving DecidableEq, Repr

structure Adapter where
  fs : FileSystem
  load : Load
  pairs : Pairs (ℤ × Breakpoint)

structure State where
  backend : DebugBackend
  threads : ℕ → Phase
  loadEvent : Bool
  detachEvent : Bool
  commandThread : CommandThread
  events : List LoadScript
  commands : List Instruction
  debugdata : Bool
  table : FileTable
  count : ℕ
  answered : ℕ → Bool
  processed : ℕ → Bool
  left : ℕ → Bool

def announcements (number : ℕ) (reports : List Report) : List LoadScript :=
  reports.filterMap (fun
    | .loadScript vm fileName source state => some ⟨vm,fileName,source,state,number⟩
    | _ => none)

/-- `RegisterScript`. PostLoadScript has looked whether the debugger is attached
before it takes the lock, which says nothing about the state it is in by now. -/
def register (s : State) (t : ℕ) (L : LuaState) (source name : Option Bytes) (unavailable : Bool) :
    Option State :=
  if s.threads t ≠ .running then none
  else match s.backend.registerScript L source name unavailable with
    | (b,none) => some {s with backend := b}
    | (b,some _) =>
      some {s with
        backend := b, threads := Function.update s.threads t (.announced s.count), count := s.count+1,
        events := s.events ++ announcements s.count (b.reports.drop s.backend.reports.length)}

def registerHooked (s : State) (t : ℕ) (L : LuaState) (ar : LuaDebug) : Option State :=
  let named := (text "@").isPrefixOf ar.source
  register s t L (if named then none else some ar.source) (some ar.source) named

def wait (s : State) (t : ℕ) : Option State :=
  match s.threads t with
  | .announced number => some {s with threads := Function.update s.threads t (.waiting number)}
  | _ => none

/-- `WaitForMultipleObjects` takes the first of the two events that is set. -/
def leave (s : State) (t : ℕ) : Option State :=
  match s.threads t with
  | .waiting number =>
    if s.loadEvent || s.detachEvent then
      some {s with
        threads := Function.update s.threads t .running, loadEvent := false,
        left := Function.update s.left number true}
    else none
  | _ => none

def toggles (load : Option ℕ) (toggled : List (ℕ × ℤ)) : List Instruction :=
  toggled.map (fun e => .toggleBreakpoint e.1 (unsigned e.2) load)

def update (s : State) (a : Adapter) : Option State :=
  if !s.debugdata then none
  else match s.events with
    | [] => none
    | e::rest =>
      let o := addFile a.fs a.load a.pairs e.fileName (eventSource e.source e.state) s.table
      let commands := s.commands ++ toggles (some e.number) o.toggled
      if o.raised then some {s with events := rest, table := o.table, commands := commands}
      else some {s with
        events := rest, table := o.table, commands := commands ++ [.loadDone e.vm e.number],
        answered := Function.update s.answered e.number true}

def setBreakpoints (s : State) (a : Adapter) (path : Bytes) (breakpoints : List SourceBreakpoint) : State :=
  let r := Files.setBreakpoints a.load a.pairs path breakpoints s.table
  {s with table := r.1, commands := if s.debugdata then s.commands ++ toggles none r.2.2 else s.commands}

def write (s : State) (i : Instruction) : State :=
  if s.debugdata then {s with commands := s.commands ++ [i]} else s

def stop (s : State) (continueRunning : Bool) : State :=
  {write s (.detach continueRunning) with debugdata := false}

def commandThreadProc (s : State) : Option State :=
  if s.commandThread ≠ .reading then none
  else match s.commands with
    | [] => none
    | .toggleBreakpoint scriptIndex line _ :: rest =>
      (s.backend.toggleBreakpoint 0 scriptIndex line).map (fun b =>
        {s with backend := b, commands := rest})
    | .loadDone _ load :: rest =>
      some {s with
        loadEvent := true, commands := rest, processed := Function.update s.processed load true}
    | .detach continueRunning :: rest =>
      some {s with
        detachEvent := true, commands := rest,
        commandThread := if continueRunning then .detached else .ended,
        backend := Resuming.detached s.backend continueRunning}
    | .other _ :: rest => some {s with commands := rest}

def connect (s : State) : Option State :=
  if s.commandThread = .detached then
    some {s with
      commandThread := .connected, events := [], commands := [], table := Files.initial,
      backend := s.backend.deleteAllBreakpoints.activeLuaHookInAllVms}
  else none

def attach (s : State) (a : Adapter) (cwd : Option Bytes) : Option State :=
  if s.commandThread = .connected then
    let o := replay a.fs a.load a.pairs s.backend.scripts (Files.init cwd s.table)
    some {s with
      commandThread := .reading, detachEvent := false, loadEvent := false, debugdata := true,
      table := o.table, commands := s.commands ++ toggles none o.toggled}
  else none

inductive Label where
  | load (t : ℕ) (L : LuaState) (source name : Option Bytes)
  | hook (t : ℕ) (L : LuaState) (ar : LuaDebug)
  | wait (t : ℕ)
  | leave (t : ℕ)
  | update (a : Adapter)
  | setBreakpoints (a : Adapter) (path : Bytes) (breakpoints : List SourceBreakpoint)
  | command (commandId : ℕ)
  | stop (continueRunning : Bool)
  | commandThreadProc
  | connect
  | attach (a : Adapter) (cwd : Option Bytes)

def step (s : State) : Label → Option State
  | .load t L source name => register s t L source name false
  | .hook t L ar => registerHooked s t L ar
  | .wait t => wait s t
  | .leave t => leave s t
  | .update a => update s a
  | .setBreakpoints a path breakpoints => some (setBreakpoints s a path breakpoints)
  | .command commandId => some (write s (.other commandId))
  | .stop continueRunning => some (stop s continueRunning)
  | .commandThreadProc => commandThreadProc s
  | .connect => connect s
  | .attach a cwd => attach s a cwd

def Step (s : State) (l : Label) (s' : State) : Prop := step s l = some s'

def initial (cwd : Option Bytes) : State where
  backend := DebugBackend.initial
  threads _ := .running
  loadEvent := false
  detachEvent := false
  commandThread := .reading
  events := []
  commands := []
  debugdata := true
  table := Files.init cwd Files.initial
  count := 0
  answered _ := false
  processed _ := false
  left _ := false

def Instruction.done : Instruction → Option ℕ
  | .loadDone _ load => some load
  | _ => none

theorem done_loadDone (vm : LuaState) (load : ℕ) : (Instruction.loadDone vm load).done = some load := rfl

def Instruction.toggleOf : Instruction → Option ℕ
  | .toggleBreakpoint _ _ load => load
  | _ => none

/-- A thread goes on after its own LoadDone, before which its toggles were processed,
and a thread whose announcement was answered is woken. -/
structure Woken (s : State) : Prop where
  own : ∀ n, s.left n = true → s.processed n = true ∧ ∀ i ∈ s.commands, i.toggleOf ≠ some n
  woken : ∀ t n, s.threads t = .waiting n → s.loadEvent = false → s.answered n = true →
    ∃ i ∈ s.commands, i.done.isSome = true

def Quiet (s : State) : Prop := ∀ t, s.threads t = .running

/-- One announcement at a time, and a session that does not end during one. -/
def Alone (s : State) : Label → Prop
  | .load _ L source name =>
      (s.backend.registerScript L source name false).2.isSome = true → Quiet s ∧ s.detachEvent = false
  | .hook _ L ar =>
      let named := (text "@").isPrefixOf ar.source
      (s.backend.registerScript L (if named then none else some ar.source) (some ar.source) named).2.isSome =
        true → Quiet s ∧ s.detachEvent = false
  | .commandThreadProc => ∀ continueRunning rest, s.commands = .detach continueRunning :: rest → Quiet s
  | _ => True

def tokens (s : State) : ℕ :=
  s.events.length + s.commands.countP (fun i => i.done.isSome) + s.loadEvent.toNat

structure Single (s : State) : Prop where
  alone : ∀ t t' n n', (s.threads t).number = some n → (s.threads t').number = some n' → t = t'
  last : ∀ t n, (s.threads t).number = some n → n+1 = s.count
  tokens : tokens s ≤ 1
  needed : Quiet s → LoadHandshake.tokens s = 0
  events : ∀ e ∈ s.events, e.number+1 = s.count
  dones : ∀ i ∈ s.commands, ∀ n, i.done = some n → n+1 = s.count
  ordered : s.commands.Pairwise (fun i j => ∀ n, i.done = some n → j.toggleOf ≠ some n)
  processed : ∀ n, s.processed n = true →
    n < s.count ∧ ∀ i ∈ s.commands, i.toggleOf ≠ some n ∧ i.done ≠ some n
  signalled : ∀ t n, (s.threads t).number = some n → (s.loadEvent = true ↔ s.processed n = true)
  answered : ∀ n, s.answered n = true → s.processed n = true ∨ ∃ i ∈ s.commands, i.done = some n
  left : ∀ n, s.left n = true → s.processed n = true
  detached : s.detachEvent = true → Quiet s
  session : s.commandThread ≠ .reading → s.detachEvent = true

section Single

variable {s s' : State} {t : ℕ}

theorem woken_of_single (s : State) (h : Single s) : Woken s := by
  refine ⟨fun n hn => ?_,fun t n ht hl ha => ?_⟩
  · have hp := h.left n hn
    exact ⟨hp,fun i hi => ((h.processed n hp).2 i hi).1⟩
  · rcases h.answered n ha with hp | ⟨i,hi,hd⟩
    · have hsig := (h.signalled t n (by rw [ht]; rfl)).mpr hp
      rw [hl] at hsig
      cases hsig
    · exact ⟨i,hi,by rw [hd]; rfl⟩

theorem not_quiet {n : ℕ} (h : (s.threads t).number = some n) : ¬ Quiet s := by
  intro hq
  rw [hq t] at h
  cases h

/-- What is on its way belongs to the thread that has announced a script. -/
theorem pending_of_token (h : Single s) (ht : 0 < tokens s) : ∃ t n, (s.threads t).number = some n := by
  by_contra hn
  have hq : Quiet s := by
    intro t
    cases hp : s.threads t with
    | running => rfl
    | announced n => exact absurd ⟨t,n,by rw [hp]; rfl⟩ hn
    | waiting n => exact absurd ⟨t,n,by rw [hp]; rfl⟩ hn
  have := h.needed hq
  omega

theorem single_frame (h : Single s) (backend : DebugBackend) (table : FileTable) (debugdata : Bool) :
    Single {s with backend := backend, table := table, debugdata := debugdata} :=
  ⟨h.alone,h.last,h.tokens,h.needed,h.events,h.dones,h.ordered,h.processed,h.signalled,h.answered,h.left,
    h.detached,h.session⟩

/-- Commands that answer no announcement. -/
theorem single_append (h : Single s) (is : List Instruction)
    (hi : ∀ i ∈ is, i.done = none ∧ i.toggleOf = none) :
    Single {s with commands := s.commands ++ is} := by
  have hcount : is.countP (fun i => i.done.isSome) = 0 := by
    rw [List.countP_eq_zero]
    intro i him
    simp [(hi i him).1]
  have htokens : tokens {s with commands := s.commands ++ is} = tokens s := by
    simp only [tokens, List.countP_append, hcount]
    omega
  have hnew (P : Instruction → Prop) (hold : ∀ i ∈ s.commands, P i)
      (hquiet : ∀ i, i.done = none → i.toggleOf = none → P i) : ∀ i ∈ s.commands ++ is, P i := by
    intro i him
    rcases List.mem_append.mp him with hm | hm
    · exact hold i hm
    · exact hquiet i (hi i hm).1 (hi i hm).2
  refine ⟨h.alone,h.last,htokens ▸ h.tokens,fun hq => htokens ▸ h.needed hq,h.events,?_,?_,?_,
    h.signalled,?_,h.left,h.detached,h.session⟩
  · exact hnew _ h.dones (fun i hd _ n hn => by rw [hd] at hn; cases hn)
  · refine List.pairwise_append.mpr ⟨h.ordered,?_,fun i _ j hj n _ => ?_⟩
    · refine List.Pairwise.imp_of_mem (R := fun _ _ => True) (fun _ hj _ n _ => ?_)
        (List.pairwise_of_forall (fun _ _ => trivial))
      rw [(hi _ hj).2]
      exact Option.some_ne_none n |>.symm
    · rw [(hi j hj).2]
      exact Option.some_ne_none n |>.symm
  · intro n hn
    refine ⟨(h.processed n hn).1,hnew _ (h.processed n hn).2 (fun i hd ht => ?_)⟩
    rw [hd, ht]
    exact ⟨(Option.some_ne_none n).symm,(Option.some_ne_none n).symm⟩
  · intro n hn
    rcases h.answered n hn with hp | ⟨i,him,hd⟩
    · exact .inl hp
    · exact .inr ⟨i,List.mem_append_left _ him,hd⟩

/-- The command at the head is taken, and answers no announcement. -/
theorem single_pop (h : Single s) {i : Instruction} {rest : List Instruction}
    (hc : s.commands = i :: rest) (hi : i.done = none) : Single {s with commands := rest} := by
  have hmem (j : Instruction) (hj : j ∈ rest) : j ∈ s.commands := by
    rw [hc]
    exact List.mem_cons_of_mem i hj
  have htokens : tokens {s with commands := rest} = tokens s := by
    simp [tokens, hc, hi]
  refine ⟨h.alone,h.last,htokens ▸ h.tokens,fun hq => htokens ▸ h.needed hq,h.events,
    fun j hj => h.dones j (hmem j hj),?_,fun n hn => ⟨(h.processed n hn).1,fun j hj =>
    (h.processed n hn).2 j (hmem j hj)⟩,h.signalled,fun n hn => ?_,h.left,h.detached,h.session⟩
  · have hordered := h.ordered
    rw [hc] at hordered
    exact (List.pairwise_cons.mp hordered).2
  · rcases h.answered n hn with hp | ⟨j,hj,hd⟩
    · exact .inl hp
    · rw [hc] at hj
      rcases List.mem_cons.mp hj with rfl | hm
      · rw [hi] at hd
        cases hd
      · exact .inr ⟨j,hm,hd⟩

/-- A LoadDone is processed, behind all toggles of its script. -/
theorem single_loadDone (h : Single s) {vm : LuaState} {load : ℕ} {rest : List Instruction}
    (hc : s.commands = .loadDone vm load :: rest) :
    Single {s with loadEvent := true, commands := rest, processed := Function.update s.processed load true} := by
  have hmem (j : Instruction) (hj : j ∈ rest) : j ∈ s.commands := by
    rw [hc]
    exact List.mem_cons_of_mem _ hj
  have hold : tokens s = s.events.length + (rest.countP (fun i => i.done.isSome) + 1) + s.loadEvent.toNat := by
    simp [tokens, hc, Instruction.done]
  have hle := h.tokens
  have hevents : s.events = [] := List.length_eq_zero_iff.mp (by omega)
  have hrest : rest.countP (fun i => i.done.isSome) = 0 := by omega
  have hdone (j : Instruction) (hj : j ∈ rest) : j.done = none := by
    simpa using List.countP_eq_zero.mp hrest j hj
  have htokens : tokens {s with
      loadEvent := true, commands := rest, processed := Function.update s.processed load true} = 1 := by
    simp [tokens, hevents, hrest]
  have hload : load+1 = s.count := h.dones (.loadDone vm load) (by rw [hc]; exact List.mem_cons_self) load rfl
  obtain ⟨t,n,hn⟩ := pending_of_token h (by omega)
  have hpairs := h.ordered
  rw [hc] at hpairs
  obtain ⟨hfirst,hpairs⟩ := List.pairwise_cons.mp hpairs
  have hprocessed (m : ℕ) (hm : Function.update s.processed load true m = true) :
      m = load ∨ s.processed m = true := by
    by_cases hml : m = load
    · exact .inl hml
    · exact .inr (Function.update_of_ne hml true s.processed ▸ hm)
  refine ⟨h.alone,h.last,htokens.le,fun hq => absurd hq (not_quiet hn),h.events,
    fun j hj => h.dones j (hmem j hj),hpairs,fun m hm => ?_,fun t' n' hn' => ?_,fun m hm => ?_,
    fun m hm => ?_,h.detached,h.session⟩
  · rcases hprocessed m hm with rfl | hm
    · exact ⟨hload.le,fun j hj => ⟨hfirst j hj m rfl,by rw [hdone j hj]; exact (Option.some_ne_none m).symm⟩⟩
    · exact ⟨(h.processed m hm).1,fun j hj => (h.processed m hm).2 j (hmem j hj)⟩
  · have hlast := h.last t' n' hn'
    have hne : n' = load := by omega
    rw [hne]
    simp
  · by_cases hml : m = load
    · rw [hml]
      exact .inl (Function.update_self _ _ _)
    · rcases h.answered m hm with hp | ⟨j,hj,hd⟩
      · exact .inl ((Function.update_of_ne hml true s.processed).trans hp)
      · rw [hc] at hj
        rcases List.mem_cons.mp hj with rfl | hj
        · exact absurd (Option.some.inj hd).symm hml
        · exact .inr ⟨j,hj,hd⟩
  · by_cases hml : m = load
    · rw [hml]
      exact Function.update_self _ _ _
    · exact (Function.update_of_ne hml true s.processed).trans (h.left m hm)

theorem registerScript_new {b b' : DebugBackend} {L : LuaState} {source name : Option Bytes}
    {unavailable : Bool} {i : ℕ} (h : b.registerScript L source name unavailable = (b',some i)) :
    i = b.scripts.length ∧ b'.scripts.length = b.scripts.length+1 ∧
      ∃ fileName code state, b'.reports = b.reports ++ [.loadScript L fileName code state] := by
  unfold DebugBackend.registerScript at h
  dsimp only at h
  split at h
  · cases h
  · split at h
    · cases h
    · cases h
      exact ⟨rfl,List.length_append,_,_,_,rfl⟩

theorem registerScript_known {b b' : DebugBackend} {L : LuaState} {source name : Option Bytes}
    {unavailable : Bool} (h : b.registerScript L source name unavailable = (b',none)) :
    b'.scripts = b.scripts := by
  unfold DebugBackend.registerScript at h
  dsimp only at h
  split at h
  · cases h
    rfl
  · split at h <;> cases h
    rfl

theorem single_register (h : Single s) (t : ℕ) (L : LuaState) (source name : Option Bytes)
    (unavailable : Bool) (hs : register s t L source name unavailable = some s')
    (ha : (s.backend.registerScript L source name unavailable).2.isSome = true →
      Quiet s ∧ s.detachEvent = false) : Single s' := by
  unfold register at hs
  split at hs
  · cases hs
  · split at hs
    · cases hs
      exact single_frame h _ _ _
    · rename_i b i hb
      cases hs
      obtain ⟨hquiet,hdetach⟩ := ha (by rw [hb]; rfl)
      obtain ⟨-,-,fileName,code,state,hreports⟩ := registerScript_new hb
      have hevents : announcements s.count (b.reports.drop s.backend.reports.length) =
          [⟨L,fileName,code,state,s.count⟩] := by
        rw [hreports, List.drop_left]
        rfl
      have hnone := h.needed hquiet
      simp only [tokens] at hnone
      have hempty : s.events = [] := List.length_eq_zero_iff.mp (by omega)
      have hcount : s.commands.countP (fun i => i.done.isSome) = 0 := by omega
      have hload : s.loadEvent = false := by
        cases hl : s.loadEvent with
        | false => rfl
        | true =>
          rw [hl] at hnone
          simp at hnone
      have hdone (j : Instruction) (hj : j ∈ s.commands) : j.done = none := by
        simpa using List.countP_eq_zero.mp hcount j hj
      have honly (t' n' : ℕ) (hn : (Function.update s.threads t (.announced s.count) t').number = some n') :
          t' = t ∧ n' = s.count := by
        by_cases ht : t' = t
        · rw [ht, Function.update_self] at hn
          exact ⟨ht,(Option.some.inj hn).symm⟩
        · rw [Function.update_of_ne ht, hquiet t'] at hn
          cases hn
      rw [hevents, hempty]
      refine ⟨fun t' t'' n' n'' hn hn' => ?_,fun t' n' hn => ?_,?_,fun hq => ?_,fun e he => ?_,
        fun j hj n hn => ?_,h.ordered,fun n hn => ?_,fun t' n' hn => ?_,h.answered,h.left,?_,h.session⟩
      · exact (honly t' n' hn).1.trans (honly t'' n'' hn').1.symm
      · rw [(honly t' n' hn).2]
      · simp [tokens, hcount, hload]
      · have ht := hq t
        simp at ht
      · cases List.mem_singleton.mp he
        rfl
      · rw [hdone j hj] at hn
        cases hn
      · obtain ⟨hlt,hcommands⟩ := h.processed n hn
        exact ⟨Nat.lt_succ_of_lt hlt,hcommands⟩
      · rw [(honly t' n' hn).2]
        dsimp only
        rw [hload]
        refine ⟨nofun,fun hp => ?_⟩
        exact absurd (h.processed s.count hp).1 (lt_irrefl _)
      · intro hd
        rw [hdetach] at hd
        cases hd

theorem single_wait (h : Single s) (hs : wait s t = some s') : Single s' := by
  unfold wait at hs
  split at hs
  · rename_i number hphase
    cases hs
    have hnumber (t' : ℕ) : (Function.update s.threads t (.waiting number) t').number = (s.threads t').number := by
      by_cases ht : t' = t
      · rw [ht, Function.update_self, hphase]
        rfl
      · rw [Function.update_of_ne ht]
    have hpending : (s.threads t).number = some number := by rw [hphase]; rfl
    have hquiet : ¬ Quiet {s with threads := Function.update s.threads t (.waiting number)} :=
      not_quiet (t := t) ((hnumber t).trans hpending)
    refine ⟨fun t' t'' n n' hn hn' => ?_,fun t' n hn => ?_,h.tokens,fun hq => absurd hq hquiet,h.events,
      h.dones,h.ordered,h.processed,fun t' n hn => ?_,h.answered,h.left,fun hd => ?_,h.session⟩
    · exact h.alone t' t'' n n' (hnumber t' ▸ hn) (hnumber t'' ▸ hn')
    · exact h.last t' n (hnumber t' ▸ hn)
    · exact h.signalled t' n (hnumber t' ▸ hn)
    · exact absurd (h.detached hd) (not_quiet hpending)
  · cases hs

theorem single_leave (h : Single s) (hs : leave s t = some s') : Single s' := by
  unfold leave at hs
  split at hs
  · rename_i number hphase
    split at hs
    · rename_i hset
      cases hs
      have hpending : (s.threads t).number = some number := by rw [hphase]; rfl
      have hdetach : s.detachEvent = false := by
        rw [← Bool.not_eq_true]
        exact fun hd => not_quiet hpending (h.detached hd)
      have hload : s.loadEvent = true := by
        rw [hdetach, Bool.or_false] at hset
        exact hset
      have hquiet (t' : ℕ) : Function.update s.threads t .running t' = .running := by
        by_cases ht : t' = t
        · rw [ht, Function.update_self]
        · rw [Function.update_of_ne ht]
          cases hp : s.threads t' with
          | running => rfl
          | announced n => exact absurd (h.alone t' t n number (by rw [hp]; rfl) hpending) ht
          | waiting n => exact absurd (h.alone t' t n number (by rw [hp]; rfl) hpending) ht
      have hle := h.tokens
      simp only [tokens, hload, Bool.toNat_true] at hle
      have hevents : s.events.length = 0 := by omega
      have hcount : s.commands.countP (fun i => i.done.isSome) = 0 := by omega
      have hnone (t' n : ℕ) (hn : (Function.update s.threads t .running t').number = some n) : False := by
        rw [hquiet t'] at hn
        cases hn
      refine ⟨fun t' _ n _ hn => (hnone t' n hn).elim,fun t' n hn => (hnone t' n hn).elim,?_,fun _ => ?_,h.events,
        h.dones,h.ordered,h.processed,fun t' n hn => (hnone t' n hn).elim,h.answered,fun n hn => ?_,
        fun _ => hquiet,h.session⟩
      · simp [tokens, hevents, hcount]
      · simp [tokens, hevents, hcount]
      · by_cases hnn : n = number
        · rw [hnn]
          exact (h.signalled t number hpending).mp hload
        · dsimp only at hn
          rw [Function.update_of_ne hnn] at hn
          exact h.left n hn
    · cases hs
  · cases hs

theorem toggles_load (load : Option ℕ) (toggled : List (ℕ × ℤ)) :
    ∀ i ∈ toggles load toggled, i.done = none ∧ i.toggleOf = load := by
  intro i hi
  obtain ⟨e,-,rfl⟩ := List.mem_map.mp hi
  exact ⟨rfl,rfl⟩

structure Arrived (s : State) (n : ℕ) : Prop where
  unsignalled : s.loadEvent = false
  silent : ∀ i ∈ s.commands, i.done = none
  unprocessed : s.processed n ≠ true
  thread : ∃ t, (s.threads t).number = some n

theorem arrived_event (h : Single s) {e : LoadScript} {rest : List LoadScript}
    (hevents : s.events = e :: rest) : rest = [] ∧ Arrived s e.number := by
  have hle := h.tokens
  have hold : tokens s = rest.length + 1 + s.commands.countP (fun i => i.done.isSome) +
      s.loadEvent.toNat := by
    simp [tokens, hevents]
  have hload : s.loadEvent = false := by
    cases hl : s.loadEvent with
    | false => rfl
    | true =>
      rw [hl, Bool.toNat_true] at hold
      omega
  have hcount : s.commands.countP (fun i => i.done.isSome) = 0 := by omega
  obtain ⟨t,n,hn⟩ := pending_of_token h (by omega)
  have hne : n = e.number := by
    have hlast := h.last t n hn
    have hnumber := h.events e (by rw [hevents]; exact List.mem_cons_self)
    omega
  rw [hne] at hn
  refine ⟨List.length_eq_zero_iff.mp (by omega),hload,fun i hi => ?_,fun hp => ?_,t,hn⟩
  · simpa using List.countP_eq_zero.mp hcount i hi
  · rw [(h.signalled t e.number hn).mpr hp] at hload
    cases hload

theorem pairwise_silent {is : List Instruction} (h : ∀ i ∈ is, i.done = none) :
    is.Pairwise (fun i j => ∀ n, i.done = some n → j.toggleOf ≠ some n) := by
  refine List.Pairwise.imp_of_mem (R := fun _ _ => True) (fun hi _ _ n hn => ?_)
    (List.pairwise_of_forall (fun _ _ => trivial))
  rw [h _ hi] at hn
  cases hn

/-- An announcement is read, and its toggles are written. -/
theorem single_toggles (h : Single s) {e : LoadScript} {rest : List LoadScript}
    (hevents : s.events = e :: rest) (table : FileTable) (toggled : List (ℕ × ℤ)) :
    Single {s with events := rest, table := table,
                   commands := s.commands ++ toggles (some e.number) toggled} ∧
      Arrived {s with events := rest, table := table,
                      commands := s.commands ++ toggles (some e.number) toggled} e.number := by
  obtain ⟨hrest,harrived⟩ := arrived_event h hevents
  obtain ⟨t,hn⟩ := harrived.thread
  have htoggle := toggles_load (some e.number) toggled
  have hsilent : ∀ i ∈ s.commands ++ toggles (some e.number) toggled, i.done = none := by
    intro i hi
    rcases List.mem_append.mp hi with hm | hm
    · exact harrived.silent i hm
    · exact (htoggle i hm).1
  have hcount : (s.commands ++ toggles (some e.number) toggled).countP (fun i => i.done.isSome) = 0 := by
    rw [List.countP_eq_zero]
    intro i hi
    simp [hsilent i hi]
  refine ⟨⟨h.alone,h.last,?_,fun hq => absurd hq (not_quiet hn),?_,?_,pairwise_silent hsilent,?_,
    h.signalled,?_,h.left,h.detached,h.session⟩,harrived.unsignalled,hsilent,harrived.unprocessed,t,hn⟩
  · simp only [tokens, hrest, hcount, harrived.unsignalled]
    exact Nat.zero_le 1
  · simp [hrest]
  · intro i hi m hm
    rw [hsilent i hi] at hm
    cases hm
  · intro m hp
    refine ⟨(h.processed m hp).1,fun i hi => ?_⟩
    rcases List.mem_append.mp hi with hm | hm
    · exact (h.processed m hp).2 i hm
    · rw [(htoggle i hm).1, (htoggle i hm).2]
      refine ⟨fun he => ?_,(Option.some_ne_none m).symm⟩
      rw [Option.some.inj he] at harrived
      exact harrived.unprocessed hp
  · intro m hm
    rcases h.answered m hm with hp | ⟨i,hi,hd⟩
    · exact .inl hp
    · exact .inr ⟨i,List.mem_append_left _ hi,hd⟩

/-- The LoadDone of an announcement is written behind its toggles. -/
theorem single_answer (h : Single s) {n : ℕ} (ha : Arrived s n) (hevents : s.events = []) (vm : LuaState) :
    Single {s with commands := s.commands ++ [.loadDone vm n],
                   answered := Function.update s.answered n true} := by
  obtain ⟨t,hn⟩ := ha.thread
  have hcount : s.commands.countP (fun i => i.done.isSome) = 0 := by
    rw [List.countP_eq_zero]
    intro i hi
    simp [ha.silent i hi]
  refine ⟨h.alone,h.last,?_,fun hq => absurd hq (not_quiet hn),h.events,?_,?_,?_,h.signalled,?_,h.left,
    h.detached,h.session⟩
  · simp [tokens, hevents, hcount, ha.unsignalled, List.countP_singleton, done_loadDone]
  · intro i hi m hm
    rcases List.mem_append.mp hi with hi | hi
    · rw [ha.silent i hi] at hm
      cases hm
    · cases List.mem_singleton.mp hi
      cases hm
      exact h.last t n hn
  · refine List.pairwise_append.mpr ⟨h.ordered,List.pairwise_singleton _ _,fun i hi j _ m hd => ?_⟩
    rw [ha.silent i hi] at hd
    cases hd
  · intro m hm
    refine ⟨(h.processed m hm).1,fun i hi => ?_⟩
    rcases List.mem_append.mp hi with hi | hi
    · exact (h.processed m hm).2 i hi
    · cases List.mem_singleton.mp hi
      refine ⟨(Option.some_ne_none m).symm,fun he => ha.unprocessed ?_⟩
      cases he
      exact hm
  · intro m hm
    by_cases hmn : m = n
    · exact .inr ⟨.loadDone vm n,List.mem_append_right _ List.mem_cons_self,by rw [hmn]; rfl⟩
    · dsimp only at hm
      rw [Function.update_of_ne hmn] at hm
      rcases h.answered m hm with hp | ⟨i,hi,hd⟩
      · exact .inl hp
      · exact .inr ⟨i,List.mem_append_left _ hi,hd⟩

/-- An announcement is read: its toggles and its LoadDone are written in this order,
or the toggles alone where `addFile` raises. -/
theorem single_update (h : Single s) {a : Adapter} (hs : update s a = some s') : Single s' := by
  unfold update at hs
  split at hs
  · cases hs
  · split at hs
    · cases hs
    · rename_i e rest hevents
      dsimp only at hs
      generalize addFile a.fs a.load a.pairs e.fileName (eventSource e.source e.state) s.table = o at hs
      obtain ⟨hsingle,harrived⟩ := single_toggles h hevents o.table o.toggled
      split at hs
      · cases hs
        exact hsingle
      · cases hs
        exact single_answer hsingle harrived (arrived_event h hevents).1 e.vm

theorem single_commandThreadProc (h : Single s) (hs : commandThreadProc s = some s')
    (ha : ∀ continueRunning rest, s.commands = .detach continueRunning :: rest → Quiet s) : Single s' := by
  unfold commandThreadProc at hs
  split at hs
  · cases hs
  · split at hs
    · cases hs
    · rename_i scriptIndex line load rest hc
      obtain ⟨b,-,rfl⟩ := Option.map_eq_some_iff.mp hs
      exact single_frame (single_pop h hc rfl) b _ _
    · rename_i vm load rest hc
      cases hs
      exact single_loadDone h hc
    · rename_i continueRunning rest hc
      cases hs
      have hpop := single_pop h hc rfl
      have hquiet := ha continueRunning rest hc
      exact ⟨hpop.alone,hpop.last,hpop.tokens,hpop.needed,hpop.events,hpop.dones,hpop.ordered,
        hpop.processed,hpop.signalled,hpop.answered,hpop.left,fun _ => hquiet,fun _ => rfl⟩
    · rename_i commandId rest hc
      cases hs
      exact single_pop h hc rfl

theorem single_connect (h : Single s) (hs : connect s = some s') : Single s' := by
  unfold connect at hs
  split at hs
  · rename_i hthread
    cases hs
    have hdetach : s.detachEvent = true := h.session (by rw [hthread]; exact nofun)
    have hquiet := h.detached hdetach
    have hnone := h.needed hquiet
    simp only [tokens] at hnone
    have hload : s.loadEvent.toNat = 0 := by omega
    have hleft (t n : ℕ) (hn : (s.threads t).number = some n) : False := not_quiet hn hquiet
    refine ⟨h.alone,h.last,?_,fun _ => ?_,nofun,nofun,.nil,fun n hn => ⟨(h.processed n hn).1,nofun⟩,
      h.signalled,fun n hn => ?_,h.left,h.detached,fun _ => hdetach⟩
    · simp [tokens, hload]
    · simp [tokens, hload]
    · rcases h.answered n hn with hp | ⟨i,hi,hd⟩
      · exact .inl hp
      · have hcount : s.commands.countP (fun i => i.done.isSome) = 0 := by omega
        have hi := List.countP_eq_zero.mp hcount i hi
        rw [hd] at hi
        exact absurd rfl hi
  · cases hs

theorem single_attach (h : Single s) {a : Adapter} {cwd : Option Bytes} (hs : attach s a cwd = some s') :
    Single s' := by
  unfold attach at hs
  split at hs
  · rename_i hthread
    cases hs
    generalize replay a.fs a.load a.pairs s.backend.scripts (Files.init cwd s.table) = o
    have hdetach : s.detachEvent = true := h.session (by rw [hthread]; exact nofun)
    have hquiet := h.detached hdetach
    have happend := single_append h (toggles none o.toggled) (toggles_load none o.toggled)
    have hnone := happend.needed hquiet
    simp only [tokens] at hnone
    have hleft (t n : ℕ) (hn : (s.threads t).number = some n) : False := not_quiet hn hquiet
    refine ⟨h.alone,h.last,?_,fun _ => ?_,h.events,happend.dones,happend.ordered,happend.processed,
      fun t n hn => (hleft t n hn).elim,happend.answered,h.left,nofun,nofun⟩
    · simp only [tokens, Bool.toNat_false]
      omega
    · simp only [tokens, Bool.toNat_false]
      omega
  · cases hs

theorem single_write (h : Single s) (i : Instruction) (hd : i.done = none) (ht : i.toggleOf = none) :
    Single (write s i) := by
  unfold write
  split
  · refine single_append h [i] (fun j hj => ?_)
    cases List.mem_singleton.mp hj
    exact ⟨hd,ht⟩
  · exact h

theorem single_step (s : State) (l : Label) (s' : State) (h : Single s) (hs : Step s l s')
    (ha : Alone s l) : Single s' := by
  cases l with
  | load t L source name => exact single_register h t L source name false hs ha
  | hook t L ar => exact single_register h t L _ _ _ hs ha
  | wait t => exact single_wait h hs
  | leave t => exact single_leave h hs
  | update a => exact single_update h hs
  | setBreakpoints a path breakpoints =>
    cases hs
    unfold setBreakpoints
    dsimp only
    split
    · exact single_frame (single_append h _ (toggles_load _ _)) _ _ _
    · exact single_frame h _ _ _
  | command commandId =>
    cases hs
    exact single_write h (.other commandId) rfl rfl
  | stop continueRunning =>
    cases hs
    exact single_frame (single_write h (.detach continueRunning) rfl rfl) _ _ false
  | commandThreadProc => exact single_commandThreadProc h hs ha
  | connect => exact single_connect h hs
  | attach a cwd => exact single_attach h hs

end Single

theorem single_initial (cwd : Option Bytes) : Single (initial cwd) :=
  ⟨nofun,nofun,Nat.zero_le 1,fun _ => rfl,nofun,nofun,.nil,nofun,nofun,nofun,nofun,fun _ _ => rfl,
    fun h => absurd rfl h⟩

/-- In a run whose announcements do not overlap, every thread goes on after its own
LoadDone, and none that was answered waits in vain. -/
theorem woken_along (cwd : Option Bytes) (labels : List Label)
    (h : Meets Step Alone (initial cwd) labels) : Along Step Woken (initial cwd) labels :=
  along_of_meets woken_of_single single_step (initial cwd) labels (single_initial cwd) h

def inMemory : Adapter :=
  ⟨⟨fun _ => .ok true,fun _ => .ok false⟩,fun _ _ => none,BreakpointSync.inOrder⟩

def loaded (t : ℕ) (name : String) : Label := .load t t (some (text name)) (some (text name))

def one : List Label := [loaded 4 "@a",.wait 4,.update inMemory,.commandThreadProc,.leave 4]

theorem woken_along_one : Along Step Woken (initial none) one := by
  apply woken_along none one
  rintro _ hload
  refine ⟨fun _ => ⟨fun _ => rfl,rfl⟩,?_⟩
  cases hload
  rintro _ hwait
  refine ⟨trivial,?_⟩
  cases hwait
  rintro _ hupdate
  refine ⟨trivial,?_⟩
  cases hupdate
  rintro _ hdone
  refine ⟨?_,?_⟩
  · rintro continueRunning rest he
    cases he
  cases hdone
  rintro _ -
  exact ⟨trivial,trivial⟩

/-- Both are answered before either waits, and the event is set only once. -/
def two : List Label :=
  [loaded 4 "@a",loaded 8 "@b",.update inMemory,.update inMemory,.commandThreadProc,.commandThreadProc,
   .wait 4,.leave 4,.wait 8]

theorem two_runs : (two.foldlM step (initial none)).isSome = true := by decide +kernel

theorem two_not_woken : ¬ Along Step Woken (initial none) two := by
  intro h
  have hend := along_runs h (runs_of_foldlM (Option.some_get two_runs).symm (fun _ _ _ _ hs => hs))
  have hwoken := hend.woken 8 1 (by decide +kernel) (by decide +kernel) (by decide +kernel)
  exact absurd hwoken (by decide +kernel)

end Vecoda.LoadHandshake
