import Vecoda.LoadHandshake

/-!
# Script indices and file ids

The backend and the adapter number the scripts by themselves. The event channel
hands them over in the order of m_scripts; an attach hands over a snapshot of
m_scripts on another pipe, while the event channel is open already. A script is
pushed and announced inside m_criticalSection, which WaitForAttach does not take.
-/

set_option autoImplicit false

namespace Vecoda.ScriptIndex
open MessagePipe (Bytes)
open LuaText (text)
open Backend Files Breakpoints Transitions
open LoadHandshake (LoadScript Adapter announcements)

inductive Session where
  | attached
  | detached
  | connected
  | ended
  deriving DecidableEq, Repr

/-- The table of the adapter, and the script that each of its files was made of. -/
structure Filed where
  table : FileTable
  created : ℕ → Option ℕ

structure State where
  backend : DebugBackend
  registering : Option LoadScript
  session : Session
  events : List LoadScript
  snapshot : Option (List (Script × ℕ))
  debugdata : Bool
  filed : Filed

def addFile (a : Adapter) (name content : Bytes) (script : ℕ) (f : Filed) : Filed × Bool :=
  let o := Files.addFile a.fs a.load a.pairs name content f.table
  ({table := o.table,
    created := if o.raised then f.created else Function.update f.created f.table.fileId (some script)},o.raised)

def replay (a : Adapter) (scripts : List (Script × ℕ)) (f : Filed) : Filed × Bool :=
  scripts.foldl
    (fun r e => if r.2 then r else addFile a e.1.name (scriptSource e.1) e.2 r.1) (f,false)

/-- `RegisterScript` up to the entry in m_scripts, with the lock taken. -/
def push (s : State) (L : LuaState) (source name : Option Bytes) (unavailable : Bool) : Option State :=
  if s.registering.isSome then none
  else match s.backend.registerScript L source name unavailable with
    | (b,none) => some {s with backend := b}
    | (b,some i) =>
      some {s with
        backend := b, registering := (announcements i (b.reports.drop s.backend.reports.length)).head?}

/-- The LoadScript event, which is lost where there is no channel, and the release of the lock. -/
def announce (s : State) : Option State :=
  match s.registering with
  | none => none
  | some e =>
    some {s with
      registering := none,
      events := if s.session = .attached ∨ s.session = .connected then s.events ++ [e] else s.events}

def update (s : State) (a : Adapter) : Option State :=
  if !s.debugdata then none
  else match s.events with
    | [] => none
    | e::rest =>
      some {s with
        events := rest,
        filed := (addFile a e.fileName (eventSource e.source e.state) e.number s.filed).1}

def setBreakpoints (s : State) (a : Adapter) (path : Bytes) (breakpoints : List SourceBreakpoint) : State :=
  {s with filed := {s.filed with
    table := (Files.setBreakpoints a.load a.pairs path breakpoints s.filed.table).1}}

def detach (s : State) (continueRunning : Bool) : Option State :=
  if s.session = .attached && s.debugdata then
    some {s with
      debugdata := false, events := [],
      session := if continueRunning then .detached else .ended,
      backend := Resuming.detached s.backend continueRunning}
  else none

def connect (s : State) : Option State :=
  if s.session = .detached then
    some {s with
      session := .connected, events := [], snapshot := none,
      filed := ⟨Files.initial,fun _ => none⟩,
      backend := s.backend.deleteAllBreakpoints.activeLuaHookInAllVms}
  else none

def send (s : State) : Option State :=
  if s.session = .connected then
    some {s with session := .attached, snapshot := some s.backend.scripts.zipIdx}
  else none

def attach (s : State) (a : Adapter) (cwd : Option Bytes) : Option State :=
  match s.snapshot with
  | none => none
  | some scripts =>
    some {s with
      snapshot := none, debugdata := true,
      filed := (replay a scripts {s.filed with table := Files.init cwd s.filed.table}).1}

inductive Label where
  | push (L : LuaState) (source name : Option Bytes) (unavailable : Bool)
  | announce
  | update (a : Adapter)
  | setBreakpoints (a : Adapter) (path : Bytes) (breakpoints : List SourceBreakpoint)
  | detach (continueRunning : Bool)
  | connect
  | send
  | attach (a : Adapter) (cwd : Option Bytes)

def step (s : State) : Label → Option State
  | .push L source name unavailable => push s L source name unavailable
  | .announce => announce s
  | .update a => update s a
  | .setBreakpoints a path breakpoints => some (setBreakpoints s a path breakpoints)
  | .detach continueRunning => detach s continueRunning
  | .connect => connect s
  | .send => send s
  | .attach a cwd => attach s a cwd

def Step (s : State) (l : Label) (s' : State) : Prop := step s l = some s'

def initial (cwd : Option Bytes) : State where
  backend := DebugBackend.initial
  registering := none
  session := .attached
  events := []
  snapshot := none
  debugdata := true
  filed := ⟨Files.init cwd Files.initial,fun _ => none⟩

/-- Once everything sent is consumed, the files are those of m_scripts, one for each. -/
def Aligned (s : State) : Prop :=
  s.session = .attached → s.registering = none → s.events = [] → s.snapshot = none →
    s.filed.table.fileId = s.backend.scripts.length ∧
    ∀ k, ((s.filed.table.files k).isSome = true ↔ k < s.backend.scripts.length) ∧
      (k < s.backend.scripts.length → s.filed.created k = some k)

/-- The snapshot is taken while no script is between its entry in m_scripts and the
delivery of its event, and every file can be added. -/
def Apart (s : State) : Label → Prop
  | .send => s.events = [] ∧ s.registering = none
  | .update a => ∀ e rest, s.events = e :: rest → Addable a.fs s.filed.table.baseDir e.fileName
  | .attach a cwd => ∀ scripts, s.snapshot = some scripts →
      ∀ e ∈ scripts, Addable a.fs (Files.init cwd s.filed.table).baseDir e.1.name
  | _ => True

def announced (s : State) : ℕ := s.backend.scripts.length - s.registering.isSome.toNat

def transit (s : State) : List ℕ :=
  (s.snapshot.getD []).map Prod.snd ++ s.events.map LoadScript.number

structure Filing (f : Filed) : Prop where
  created : ∀ k, k < f.table.fileId → f.created k = some k
  files : ∀ k, (f.table.files k).isSome = true ↔ k < f.table.fileId

structure InOrder (s : State) : Prop where
  filing : Filing s.filed
  registering : s.session ≠ .ended → ∀ e, s.registering = some e → e.number+1 = s.backend.scripts.length
  attached : s.session = .attached → s.filed.table.fileId ≤ announced s ∧
    transit s = List.range' s.filed.table.fileId (announced s - s.filed.table.fileId)
  connected : s.session = .connected → s.filed.table.fileId = 0
  snapshot : s.snapshot.isSome = true → s.session = .attached ∧ s.debugdata = false
  debugdata : s.debugdata = true → s.session = .attached

section Filing

variable {a : Adapter} {f : Filed}

theorem filing_addFile (h : Filing f) (name content : Bytes)
    (ha : Addable a.fs f.table.baseDir name) :
    Filing (addFile a name content f.table.fileId f).1 ∧
      (addFile a name content f.table.fileId f).2 = false ∧
      (addFile a name content f.table.fileId f).1.table.baseDir = f.table.baseDir ∧
      (addFile a name content f.table.fileId f).1.table.fileId = f.table.fileId+1 := by
  obtain ⟨hraised,hbase,hid,hfiles⟩ := addFile_spec a.fs a.load a.pairs f.table name content ha
  refine ⟨⟨fun k hk => ?_,fun k => ?_⟩,hraised,hbase,hid⟩
  · simp only [addFile, hraised, hid, Bool.false_eq_true, if_false] at hk ⊢
    by_cases hkf : k = f.table.fileId
    · rw [hkf, Function.update_self]
    · rw [Function.update_of_ne hkf]
      exact h.created k (by omega)
  · simp only [addFile, hid, hfiles]
    rw [Bool.or_eq_true, decide_eq_true_eq, h.files k]
    omega

/-- The files go on in the order of the scripts that are sent. -/
theorem filing_replay (scripts : List (Script × ℕ)) (tail : List ℕ) (n : ℕ) (h : Filing f)
    (ha : ∀ e ∈ scripts, Addable a.fs f.table.baseDir e.1.name)
    (ht : scripts.map Prod.snd ++ tail = List.range' f.table.fileId n) :
    Filing (replay a scripts f).1 ∧ (replay a scripts f).1.table.fileId ≤ f.table.fileId+n ∧
      tail = List.range' (replay a scripts f).1.table.fileId
        (f.table.fileId+n-(replay a scripts f).1.table.fileId) := by
  induction scripts generalizing f n with
  | nil =>
    refine ⟨h,Nat.le_add_right _ _,?_⟩
    have hn : f.table.fileId+n-f.table.fileId = n := by omega
    change tail = List.range' f.table.fileId (f.table.fileId+n-f.table.fileId)
    rw [hn, ← ht]
    rfl
  | cons e scripts ih =>
    obtain ⟨hfirst,hrest⟩ := List.forall_mem_cons.mp ha
    cases n with
    | zero => simp at ht
    | succ n =>
      rw [List.range'_succ, List.map_cons, List.cons_append] at ht
      obtain ⟨hindex,ht⟩ := List.cons.inj ht
      obtain ⟨hfiling,hraised,hbase,hid⟩ := filing_addFile h e.1.name (scriptSource e.1) hfirst
      have hreplay : replay a (e::scripts) f =
          replay a scripts (addFile a e.1.name (scriptSource e.1) f.table.fileId f).1 := by
        rw [replay, List.foldl_cons, if_neg Bool.false_ne_true, hindex, replay, ← hraised]
      rw [hreplay]
      have hnext := ih n hfiling (hbase ▸ hrest) (by rw [hid]; exact ht)
      rw [hid] at hnext
      have hsum : f.table.fileId+1+n = f.table.fileId+(n+1) := by omega
      rwa [hsum] at hnext

end Filing

section Steps

variable {s s' : State}

theorem aligned_of_inOrder (s : State) (h : InOrder s) : Aligned s := by
  intro hattached hregistering hevents hsnapshot
  obtain ⟨hle,htransit⟩ := h.attached hattached
  have hannounced : announced s = s.backend.scripts.length := by
    simp [announced, hregistering]
  have hnone : announced s - s.filed.table.fileId = 0 := by
    have hlength := congrArg List.length htransit
    simpa [transit, hsnapshot, hevents] using hlength.symm
  have hid : s.filed.table.fileId = s.backend.scripts.length := by omega
  refine ⟨hid,fun k => ⟨?_,fun hk => h.filing.created k (by omega)⟩⟩
  rw [h.filing.files k, hid]

theorem inOrder_push (h : InOrder s) (L : LuaState) (source name : Option Bytes) (unavailable : Bool)
    (hs : push s L source name unavailable = some s') : InOrder s' := by
  unfold push at hs
  split at hs
  · cases hs
  · rename_i hfree
    rw [Option.not_isSome_iff_eq_none] at hfree
    split at hs
    · rename_i b hb
      cases hs
      have hscripts := LoadHandshake.registerScript_known hb
      have hannounced : announced {s with backend := b} = announced s := by
        simp only [announced, hscripts]
      exact ⟨h.filing,fun hended e he => hscripts ▸ h.registering hended e he,fun ha => hannounced ▸ h.attached ha,
        h.connected,h.snapshot,h.debugdata⟩
    · rename_i b i hb
      cases hs
      obtain ⟨hi,hlength,fileName,code,state,hreports⟩ := LoadHandshake.registerScript_new hb
      have hevent : (announcements i (b.reports.drop s.backend.reports.length)).head? =
          some ⟨L,fileName,code,state,i⟩ := by
        rw [hreports, List.drop_left]
        rfl
      rw [hevent]
      have hannounced : announced {s with backend := b, registering := some ⟨L,fileName,code,state,i⟩} =
          announced s := by
        simp [announced, hlength, hfree]
      refine ⟨h.filing,fun _ e he => ?_,fun ha => hannounced ▸ h.attached ha,h.connected,h.snapshot,
        h.debugdata⟩
      cases he
      exact (congrArg (· + 1) hi).trans hlength.symm

theorem inOrder_announce (h : InOrder s) (hs : announce s = some s') : InOrder s' := by
  unfold announce at hs
  split at hs
  · cases hs
  · rename_i e he
    cases hs
    refine ⟨h.filing,nofun,fun ha => ?_,h.connected,h.snapshot,h.debugdata⟩
    obtain ⟨hle,htransit⟩ := h.attached ha
    have hnumber := h.registering (fun hended => by rw [ha] at hended; cases hended) e he
    have hold : announced s = e.number := by
      simp only [announced, he, Option.isSome_some, Bool.toNat_true]
      omega
    have hnew : announced {s with registering := none, events := s.events ++ [e]} = e.number+1 := by
      simp [announced, hnumber]
    have hsent : transit {s with registering := none, events := s.events ++ [e]} =
        transit s ++ [e.number] := by
      simp [transit]
    rw [hold] at hle htransit
    dsimp only at ha ⊢
    rw [if_pos (.inl ha), hnew, hsent, htransit]
    refine ⟨by omega,?_⟩
    have hsucc : e.number+1-s.filed.table.fileId = e.number-s.filed.table.fileId+1 := by omega
    rw [hsucc, List.range'_1_concat]
    congr 2
    omega

theorem inOrder_update (h : InOrder s) {a : Adapter} (hs : update s a = some s')
    (ha : ∀ e rest, s.events = e :: rest → Addable a.fs s.filed.table.baseDir e.fileName) :
    InOrder s' := by
  unfold update at hs
  split at hs
  · cases hs
  · rename_i hdebugdata
    rw [Bool.not_eq_true', Bool.not_eq_false] at hdebugdata
    split at hs
    · cases hs
    · rename_i e rest hevents
      cases hs
      have hattached := h.debugdata hdebugdata
      have hsnapshot : s.snapshot = none := by
        rw [← Option.not_isSome_iff_eq_none]
        intro hsome
        rw [(h.snapshot hsome).2] at hdebugdata
        cases hdebugdata
      obtain ⟨hle,htransit⟩ := h.attached hattached
      have hold : transit s = e.number :: rest.map LoadScript.number := by
        simp [transit, hsnapshot, hevents]
      rw [hold] at htransit
      cases hn : announced s - s.filed.table.fileId with
      | zero =>
        rw [hn] at htransit
        cases htransit
      | succ n =>
        rw [hn, List.range'_succ] at htransit
        obtain ⟨hnumber,hrest⟩ := List.cons.inj htransit
        obtain ⟨hfiling,-,-,hid⟩ := filing_addFile h.filing e.fileName (eventSource e.source e.state)
          (ha e rest hevents)
        rw [hnumber]
        refine ⟨hfiling,h.registering,fun _ => ?_,fun hc => ?_,h.snapshot,h.debugdata⟩
        · dsimp only
          rw [hid]
          have hleft : announced s - (s.filed.table.fileId+1) = n := by omega
          refine ⟨?_,?_⟩
          · change s.filed.table.fileId+1 ≤ announced s
            omega
          · change (s.snapshot.getD []).map Prod.snd ++ rest.map LoadScript.number =
              List.range' (s.filed.table.fileId+1) (announced s - (s.filed.table.fileId+1))
            rw [hleft, hsnapshot, hrest]
            rfl
        · dsimp only at hc
          rw [hattached] at hc
          cases hc

theorem inOrder_setBreakpoints (h : InOrder s) (a : Adapter) (path : Bytes)
    (breakpoints : List SourceBreakpoint) : InOrder (setBreakpoints s a path breakpoints) := by
  have hsame := sameFiles_setBreakpoints a.load a.pairs s.filed.table path breakpoints
  refine ⟨⟨fun k hk => h.filing.created k (hsame.fileId ▸ hk),fun k => ?_⟩,h.registering,fun ha => ?_,
    fun hc => ?_,h.snapshot,h.debugdata⟩
  · change ((Files.setBreakpoints a.load a.pairs path breakpoints s.filed.table).1.files k).isSome = true ↔
      k < (Files.setBreakpoints a.load a.pairs path breakpoints s.filed.table).1.fileId
    rw [hsame.files k, hsame.fileId]
    exact h.filing.files k
  · have hattached := h.attached ha
    rw [← hsame.fileId] at hattached
    exact hattached
  · exact hsame.fileId.trans (h.connected hc)

theorem inOrder_detach (h : InOrder s) (continueRunning : Bool)
    (hs : detach s continueRunning = some s') : InOrder s' := by
  unfold detach at hs
  split at hs
  · rename_i hguard
    cases hs
    rw [Bool.and_eq_true, decide_eq_true_eq] at hguard
    obtain ⟨hattached,hdebugdata⟩ := hguard
    have hsnapshot : ¬ s.snapshot.isSome = true := by
      intro hsome
      rw [(h.snapshot hsome).2] at hdebugdata
      cases hdebugdata
    cases continueRunning with
    | true =>
      exact ⟨h.filing,fun _ => h.registering (by rw [hattached]; exact nofun),nofun,nofun,
        fun hsome => absurd hsome hsnapshot,nofun⟩
    | false =>
      exact ⟨h.filing,fun hended => absurd rfl hended,nofun,nofun,fun hsome => absurd hsome hsnapshot,nofun⟩
  · cases hs

theorem inOrder_connect (h : InOrder s) (hs : connect s = some s') : InOrder s' := by
  unfold connect at hs
  split at hs
  · rename_i hdetached
    cases hs
    have hlength : s.backend.deleteAllBreakpoints.activeLuaHookInAllVms.scripts.length =
        s.backend.scripts.length := List.length_map _
    refine ⟨⟨fun k hk => absurd hk (Nat.not_lt_zero k),fun k => ?_⟩,fun _ e he => ?_,nofun,fun _ => rfl,
      nofun,fun hdebugdata => ?_⟩
    · simp [Files.initial]
    · exact (h.registering (by rw [hdetached]; exact nofun) e he).trans hlength.symm
    · rw [h.debugdata hdebugdata] at hdetached
      cases hdetached
  · cases hs

theorem inOrder_send (h : InOrder s) (hs : send s = some s') (ha : s.events = [] ∧ s.registering = none) :
    InOrder s' := by
  unfold send at hs
  split at hs
  · rename_i hconnected
    cases hs
    have hid := h.connected hconnected
    have hdebugdata : s.debugdata = false := by
      rw [← Bool.not_eq_true]
      intro hd
      rw [h.debugdata hd] at hconnected
      cases hconnected
    refine ⟨h.filing,fun _ => h.registering (by rw [hconnected]; exact nofun),fun _ => ?_,nofun,
      fun _ => ⟨rfl,hdebugdata⟩,fun _ => rfl⟩
    dsimp only
    rw [hid]
    simp [transit, announced, ha.1, ha.2, List.zipIdx_map_snd]
  · cases hs

theorem inOrder_attach (h : InOrder s) {a : Adapter} {cwd : Option Bytes} (hs : attach s a cwd = some s')
    (ha : ∀ scripts, s.snapshot = some scripts →
      ∀ e ∈ scripts, Addable a.fs (Files.init cwd s.filed.table).baseDir e.1.name) : InOrder s' := by
  unfold attach at hs
  split at hs
  · cases hs
  · rename_i scripts hsnapshot
    cases hs
    obtain ⟨hattached,-⟩ := h.snapshot (by rw [hsnapshot]; rfl)
    obtain ⟨hle,htransit⟩ := h.attached hattached
    have hfiling : Filing {s.filed with table := Files.init cwd s.filed.table} :=
      ⟨h.filing.created,h.filing.files⟩
    have hsent : scripts.map Prod.snd ++ s.events.map LoadScript.number =
        List.range' s.filed.table.fileId (announced s - s.filed.table.fileId) := by
      rw [← htransit, transit, hsnapshot]
      rfl
    obtain ⟨hfiled,hcount,htail⟩ := filing_replay (a := a) scripts (s.events.map LoadScript.number)
      (announced s - s.filed.table.fileId) hfiling (ha scripts hsnapshot) hsent
    have hsum : s.filed.table.fileId + (announced s - s.filed.table.fileId) = announced s := by omega
    change _ ≤ s.filed.table.fileId + (announced s - s.filed.table.fileId) at hcount
    change _ = List.range' _ (s.filed.table.fileId + (announced s - s.filed.table.fileId) - _) at htail
    rw [hsum] at hcount htail
    refine ⟨hfiled,h.registering,fun _ => ⟨hcount,htail⟩,fun hc => ?_,nofun,fun _ => hattached⟩
    dsimp only at hc
    rw [hattached] at hc
    cases hc

theorem inOrder_step (s : State) (l : Label) (s' : State) (h : InOrder s) (hs : Step s l s')
    (ha : Apart s l) : InOrder s' := by
  cases l with
  | push L source name unavailable => exact inOrder_push h L source name unavailable hs
  | announce => exact inOrder_announce h hs
  | update a => exact inOrder_update h hs ha
  | setBreakpoints a path breakpoints =>
    cases hs
    exact inOrder_setBreakpoints h a path breakpoints
  | detach continueRunning => exact inOrder_detach h continueRunning hs
  | connect => exact inOrder_connect h hs
  | send => exact inOrder_send h hs ha
  | attach a cwd => exact inOrder_attach h hs ha

end Steps

theorem inOrder_initial (cwd : Option Bytes) : InOrder (initial cwd) := by
  refine ⟨⟨fun k hk => absurd hk (Nat.not_lt_zero k),fun k => ?_⟩,nofun,fun _ => ⟨le_refl 0,rfl⟩,nofun,
    nofun,fun _ => rfl⟩
  simp [initial, Files.init, Files.initial]

def resumed : List Label :=
  [.push 4 none (some (text "@a")) true,.announce,.detach true,.connect]

/-- A script is registered between the connection of the channels and the snapshot. -/
def overlapped : List Label :=
  resumed ++ [.push 4 none (some (text "@b")) true,.announce,.send,.attach LoadHandshake.inMemory none,
    .update LoadHandshake.inMemory]

theorem overlapped_runs : (overlapped.foldlM step (initial none)).isSome = true := by decide +kernel

end Vecoda.ScriptIndex
