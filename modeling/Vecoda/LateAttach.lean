import Vecoda.EventAgreement
import Vecoda.LoadHandshake
import Vecoda.ThreadList

/-!
# Attaching to a process that runs

The snapshot of `WaitForAttach` goes through `attachProcess` and the loops of
`handlers.attach`; a debuggee that was attached from the start reports the same
machines and scripts as events to `worker.update`. The two are compared as
states of the adapter: its threads and its files. Identifiers of machines are
pushed as floats on the one way and as integers on the other.
-/

set_option autoImplicit false

namespace Vecoda.LateAttach
open MessagePipe LuaText Channel EventStream Files

inductive Number where
  | integer (z : ℤ)
  | float (z : ℤ)
  deriving DecidableEq, Repr

def Number.value : Number → ℤ
  | .integer z => z
  | .float z => z

def pushInteger (vm : UInt64) : Number :=
  .integer (if vm.toNat < 2^63 then vm.toNat else vm.toNat - 2^64)

/-- The double nearest to an unsigned integer: 53 significant bits, ties to the even one. -/
def toDouble (n : ℕ) : ℕ :=
  let unit := 2^(n.log2 - 52)
  let quotient := n / unit
  let remainder := n % unit
  if unit < 2 * remainder ∨ (unit = 2 * remainder ∧ quotient % 2 = 1) then (quotient+1) * unit
  else quotient * unit

def pushNumber (vm : UInt64) : Number := .float (toDouble vm.toNat)

def formatted : Number → Lua ℕ
  | .integer z => .ok (z % 2^64).toNat
  | .float z => if -2^63 ≤ z ∧ z < 2^63 then .ok (z % 2^64).toNat else .error .raised

structure Thread where
  name : Bytes
  id : Number
  deriving DecidableEq, Repr

def threadName (n : ℕ) : Bytes := text "Thread(0x" ++ ThreadList.hex n ++ text ")"

def newThread (threads : List Thread) (vm : Number) : Lua (List Thread) := do
  let n ← formatted vm
  return threads ++ [⟨threadName n,vm⟩]

structure State where
  threads : List Thread
  table : FileTable

/-- What `ReadString` gives for a string of the backend, see `takes_readString_cstr`. -/
def delivered (s : Bytes) : Bytes := cstr (wireText s)

def received (script : Backend.Script) : Backend.Script :=
  {script with name := delivered script.name, source := delivered script.source}

section Ways

variable (a : LoadHandshake.Adapter)

/-- The loop over `predata.vms`, and whether it raised. -/
def newThreads : List Number → List Thread → List Thread × Bool
  | [], threads => (threads,false)
  | vm::vms, threads =>
    match newThread threads vm with
    | .ok threads => newThreads vms threads
    | .error _ => (threads,true)

/-- `handlers.attach` after its response; the handler as a whole runs under pcall. -/
def attach (vms : List UInt64) (scripts : List Backend.Script) (s : State) : State :=
  let (threads,raised) := newThreads (vms.map pushNumber) s.threads
  if raised then {s with threads := threads}
  else ⟨threads,(replay a.fs a.load a.pairs (scripts.map received) s.table).table⟩

inductive Event where
  | createVM (vm : UInt64)
  | loadScript (script : Backend.Script)

/-- `worker.update` for one event, each under a pcall of its own. -/
def update (s : State) : Event → State
  | .createVM vm =>
    match newThread s.threads (pushInteger vm) with
    | .ok threads => {s with threads := threads}
    | .error _ => s
  | .loadScript script =>
    let script := received script
    {s with table :=
      (addFile a.fs a.load a.pairs script.name (eventSource script.source script.state) s.table).table}

def events (vms : List UInt64) (scripts : List Backend.Script) : List Event :=
  vms.map Event.createVM ++ scripts.map Event.loadScript

def live (vms : List UInt64) (scripts : List Backend.Script) (s : State) : State :=
  (events vms scripts).foldl (update a) s

def addFiles (files : List (Bytes × Bytes)) (t : FileTable) : FileTable :=
  files.foldl (fun t f => (addFile a.fs a.load a.pairs f.1 f.2 t).table) t

end Ways

/-- The threads agree in their names and, as Lua compares numbers, in their ids. -/
def SameThread (x y : Thread) : Prop := x.name = y.name ∧ x.id.value = y.id.value

structure SameState (s t : State) : Prop where
  threads : List.Forall₂ SameThread s.threads t.threads
  table : s.table = t.table

section Numbers

def Exact (vm : UInt64) : Prop := vm.toNat < 2^63 ∧ toDouble vm.toNat = vm.toNat

theorem value_eq_iff (vm : UInt64) : (pushNumber vm).value = (pushInteger vm).value ↔ Exact vm := by
  have hbound := vm.toNat_lt
  simp only [pushNumber, pushInteger, Number.value, Exact]
  split
  · next h => simp only [h, true_and, Int.natCast_inj]
  · next h =>
    simp only [h, false_and, iff_false]
    omega

def bits (vm : Number) : ℕ := (vm.value % 2^64).toNat

theorem formatted_cases (vm : Number) : formatted vm = .ok (bits vm) ∨ formatted vm = .error .raised := by
  cases vm with
  | integer z => exact .inl rfl
  | float z =>
    rw [formatted]
    split
    · exact .inl rfl
    · exact .inr rfl

theorem formatted_exact {vm : UInt64} (h : Exact vm) :
    formatted (pushNumber vm) = .ok (bits (pushNumber vm)) := by
  have hlow := h.1
  rw [pushNumber, formatted, if_pos]
  · rfl
  · rw [h.2]
    omega

end Numbers

section Threads

variable {threads : List Thread} {vms : List Number}

def threadOf (vm : Number) : Thread := ⟨threadName (bits vm),vm⟩

theorem newThread_ok {vm : Number} (h : formatted vm = .ok (bits vm)) (threads : List Thread) :
    newThread threads vm = .ok (threads ++ [threadOf vm]) := by
  rw [newThread, h]
  rfl

theorem newThread_error {vm : Number} (h : formatted vm = .error .raised) (threads : List Thread) :
    newThread threads vm = .error .raised := by
  rw [newThread, h]
  rfl

theorem newThreads_all (h : ∀ vm ∈ vms, formatted vm = .ok (bits vm)) (threads : List Thread) :
    newThreads vms threads = (threads ++ vms.map threadOf,false) := by
  induction vms generalizing threads with
  | nil => simp [newThreads]
  | cons vm vms ih =>
    obtain ⟨hvm,hvms⟩ := List.forall_mem_cons.mp h
    rw [newThreads, newThread_ok hvm]
    show newThreads vms (threads ++ [threadOf vm]) = _
    rw [ih hvms, List.append_assoc]
    rfl

/-- A raise leaves the list shorter than the machines. -/
theorem newThreads_raised (threads : List Thread) (h : (newThreads vms threads).2 = true) :
    (newThreads vms threads).1.length < threads.length + vms.length := by
  induction vms generalizing threads with
  | nil => cases h
  | cons vm vms ih =>
    rcases formatted_cases vm with hvm | hvm
    · rw [newThreads, newThread_ok hvm] at h ⊢
      have := ih (threads ++ [threadOf vm]) h
      simp only [List.length_append, List.length_cons, List.length_nil] at this ⊢
      omega
    · rw [newThreads, newThread_error hvm]
      simp

theorem newThreads_of_not_raised (threads : List Thread) (h : (newThreads vms threads).2 = false) :
    (newThreads vms threads).1 = threads ++ vms.map threadOf := by
  have hall : ∀ vm ∈ vms, formatted vm = .ok (bits vm) := by
    induction vms generalizing threads with
    | nil => exact List.forall_mem_nil _
    | cons vm vms ih =>
      rcases formatted_cases vm with hvm | hvm
      · rw [newThreads, newThread_ok hvm] at h
        exact List.forall_mem_cons.mpr ⟨hvm,ih _ h⟩
      · rw [newThreads, newThread_error hvm] at h
        cases h
  rw [newThreads_all hall]

end Threads

section Contents

variable (a : LoadHandshake.Adapter)

def contents (t : FileTable) (k : ℕ) : Option Bytes := (t.files k).map Entry.content

theorem contents_setBreakpoints (path : Bytes) (breakpoints : List Breakpoints.SourceBreakpoint)
    (t : FileTable) : contents (setBreakpoints a.load a.pairs path breakpoints t).1 = contents t := by
  unfold setBreakpoints
  split
  · rfl
  · next k hk =>
    split
    · rfl
    · next file hfile =>
      ext1 j
      by_cases hj : j = k
      · subst hj
        simp [contents, hfile]
      · simp [contents, Function.update_of_ne hj]

theorem contents_loadFile (path : Bytes) (t : FileTable) :
    contents (loadFile a.load a.pairs path t).1 = contents t := by
  unfold loadFile
  split
  · rfl
  · next breakpoints hpath => exact contents_setBreakpoints a path breakpoints _

theorem contents_addFile {t : FileTable} {name : Bytes} (content : Bytes)
    (h : Addable a.fs t.baseDir name) :
    contents (addFile a.fs a.load a.pairs name content t).table =
      Function.update (contents t) t.fileId (some content) := by
  obtain ⟨path,found,hresolve,hexists⟩ := h
  have hpath : (do let name ← resolve a.fs name t.baseDir; return (name,← a.fs.exists name) :
      Lua (Bytes × Bool)) = .ok (path,found) := by
    rw [hresolve]
    change (a.fs.exists path).bind (fun e => .ok (path,e)) = _
    rw [hexists]
    rfl
  have hupdate (file : Entry) (hfile : file.content = content) :
      (fun k => (Function.update t.files t.fileId (some file) k).map Entry.content) =
        Function.update (contents t) t.fileId (some content) := by
    ext1 k
    by_cases hk : k = t.fileId
    · simp [hk, hfile]
    · simp [hk, contents]
  unfold addFile
  rw [hpath]
  cases found with
  | false => exact hupdate _ rfl
  | true =>
    exact (contents_loadFile a (lower path) _).trans (hupdate _ rfl)

def AllAddable (baseDir : Bytes) (files : List (Bytes × Bytes)) : Prop :=
  ∀ f ∈ files, Addable a.fs baseDir f.1

theorem contents_addFiles (files : List (Bytes × Bytes)) (t : FileTable)
    (h : AllAddable a t.baseDir files) :
    (∀ k < t.fileId, contents (addFiles a files t) k = contents t k) ∧
      ∀ i, (files[i]?).isSome = true →
        contents (addFiles a files t) (t.fileId+i) = files[i]?.map Prod.snd := by
  induction files generalizing t with
  | nil => exact ⟨fun _ _ => rfl,fun i hi => by simp at hi⟩
  | cons f files ih =>
    obtain ⟨hf,hfiles⟩ := List.forall_mem_cons.mp h
    obtain ⟨-,hbase,hid,-⟩ := addFile_spec a.fs a.load a.pairs t f.1 f.2 hf
    have hcontents := contents_addFile a f.2 hf
    generalize hadded : (addFile a.fs a.load a.pairs f.1 f.2 t).table = t' at hbase hid hcontents
    have hstep : addFiles a (f::files) t = addFiles a files t' := by
      rw [← hadded]
      rfl
    obtain ⟨hbefore,hafter⟩ := ih t' (by rw [AllAddable, hbase]; exact hfiles)
    rw [hid] at hbefore hafter
    rw [hstep]
    refine ⟨fun k hk => ?_,fun i hi => ?_⟩
    · rw [hbefore k (by omega), hcontents, Function.update_of_ne (by omega)]
    · cases i with
      | zero =>
        rw [hbefore _ (by omega), hcontents, Nat.add_zero, Function.update_self]
        rfl
      | succ i =>
        have hi' := hafter i (by simpa using hi)
        rw [show t.fileId+(i+1) = t.fileId+1+i by omega, hi']
        simp

/-- Two lists with the same names leave the same tables exactly if they are the same. -/
theorem addFiles_eq_iff {α : Type} (names first second : α → Bytes) (scripts : List α) (t : FileTable)
    (h : ∀ s ∈ scripts, Addable a.fs t.baseDir (names s)) :
    addFiles a (scripts.map (fun s => (names s,first s))) t =
        addFiles a (scripts.map (fun s => (names s,second s))) t ↔
      ∀ s ∈ scripts, first s = second s := by
  have haddable (image : α → Bytes) :
      AllAddable a t.baseDir (scripts.map (fun s => (names s,image s))) := by
    intro f hf
    obtain ⟨s,hs,rfl⟩ := List.mem_map.mp hf
    exact h s hs
  constructor
  · intro heq s hs
    obtain ⟨i,hi⟩ := List.mem_iff_getElem?.mp hs
    have hread (image : α → Bytes) :
        contents (addFiles a (scripts.map (fun s => (names s,image s))) t) (t.fileId+i) = some (image s) := by
      rw [(contents_addFiles a _ t (haddable image)).2 i (by simp [hi])]
      simp [hi]
    have hsame := hread first
    rw [heq, hread second] at hsame
    exact (Option.some.inj hsame).symm
  · intro heq
    rw [List.map_congr_left (fun s hs => by rw [heq s hs])]

end Contents

section Comparison

variable (a : LoadHandshake.Adapter)

theorem foldl_loadScript (scripts : List Backend.Script) (s : State) :
    (scripts.map Event.loadScript).foldl (update a) s =
      {s with table := addFiles a (scripts.map (fun script =>
        (delivered script.name,eventSource (delivered script.source) script.state))) s.table} := by
  induction scripts generalizing s with
  | nil => rfl
  | cons script scripts ih => exact ih _

theorem live_eq (vms : List UInt64) (scripts : List Backend.Script) (s : State) :
    live a vms scripts s = ⟨s.threads ++ vms.map (fun vm => threadOf (pushInteger vm)),
      addFiles a (scripts.map (fun script =>
        (delivered script.name,eventSource (delivered script.source) script.state))) s.table⟩ := by
  rw [live, events, List.foldl_append, foldl_loadScript]
  have hthreads (vms : List UInt64) (s : State) : (vms.map Event.createVM).foldl (update a) s =
      {s with threads := s.threads ++ vms.map (fun vm => threadOf (pushInteger vm))} := by
    induction vms generalizing s with
    | nil => simp
    | cons vm vms ih =>
      have hstep : update a s (.createVM vm) =
          {s with threads := s.threads ++ [threadOf (pushInteger vm)]} := rfl
      rw [List.map_cons, List.foldl_cons, hstep, ih, List.append_assoc]
      rfl
  rw [hthreads]

/-- Without a raise the replay is a sequence of additions. -/
theorem replay_eq (scripts : List Backend.Script) (t : FileTable)
    (h : ∀ s ∈ scripts, Addable a.fs t.baseDir (delivered s.name)) :
    (replay a.fs a.load a.pairs (scripts.map received) t).table =
      addFiles a (scripts.map (fun script => (delivered script.name,scriptSource script))) t := by
  have hfold (scripts : List Backend.Script) (o : Outcome) (hr : o.raised = false)
      (h : ∀ s ∈ scripts, Addable a.fs o.table.baseDir (delivered s.name)) :
      ((scripts.map received).foldl
        (fun o s =>
          if o.raised then o
          else
            let added := addFile a.fs a.load a.pairs s.name (scriptSource s) o.table
            {added with toggled := o.toggled ++ added.toggled}) o).table =
        addFiles a (scripts.map (fun script => (delivered script.name,scriptSource script))) o.table := by
    induction scripts generalizing o with
    | nil => rfl
    | cons script scripts ih =>
      obtain ⟨hs,hscripts⟩ := List.forall_mem_cons.mp h
      obtain ⟨hraised,hbase,-,-⟩ :=
        addFile_spec a.fs a.load a.pairs o.table (delivered script.name) (scriptSource script) hs
      rw [List.map_cons, List.foldl_cons, hr]
      exact ih _ hraised (fun s hs' => hbase ▸ hscripts s hs')
  exact hfold scripts ⟨t,[],false⟩ rfl h

theorem forall₂_append_same {l x y : List Thread} :
    List.Forall₂ SameThread (l ++ x) (l ++ y) ↔ List.Forall₂ SameThread x y := by
  induction l with
  | nil => rfl
  | cons t l ih =>
    rw [List.cons_append, List.cons_append, List.forall₂_cons, ih]
    exact and_iff_right ⟨rfl,rfl⟩

theorem sameThread_iff (vm : UInt64) :
    SameThread (threadOf (pushNumber vm)) (threadOf (pushInteger vm)) ↔ Exact vm := by
  rw [← value_eq_iff]
  refine ⟨fun h => h.2,fun h => ⟨?_,h⟩⟩
  rw [threadOf, threadOf, bits, bits, h]

/-- What is shown of a script in the snapshot is what its event shows. -/
theorem scriptSource_eq_iff (s : Backend.Script) :
    scriptSource s = eventSource (delivered s.source) s.state ↔
      (s.state = .normal → delivered s.source = text "<binary>") := by
  rw [scriptSource]
  cases s.state with
  | normal => simpa [eventSource] using eq_comm
  | unavailable => simp [eventSource]
  | binary => simp [eventSource]

theorem sameState_iff (vms : List UInt64) (scripts : List Backend.Script) (s : State)
    (h : ∀ script ∈ scripts, Addable a.fs s.table.baseDir (delivered script.name)) :
    SameState (attach a vms scripts s) (live a vms scripts s) ↔
      (∀ vm ∈ vms, Exact vm) ∧
        ∀ script ∈ scripts, script.state = .normal → delivered script.source = text "<binary>" := by
  have htables : addFiles a (scripts.map (fun script => (delivered script.name,scriptSource script))) s.table =
      addFiles a (scripts.map (fun script =>
        (delivered script.name,eventSource (delivered script.source) script.state))) s.table ↔
      ∀ script ∈ scripts, script.state = .normal → delivered script.source = text "<binary>" := by
    rw [addFiles_eq_iff a _ _ _ scripts s.table h]
    exact forall₂_congr (fun script _ => scriptSource_eq_iff script)
  rw [← htables, live_eq]
  cases hraised : (newThreads (vms.map pushNumber) s.threads).2 with
  | true =>
    have hlength := newThreads_raised s.threads hraised
    have hattach : (attach a vms scripts s).threads = (newThreads (vms.map pushNumber) s.threads).1 := by
      rw [attach]
      simp [hraised]
    constructor
    · intro hsame
      have hthreads := hsame.threads.length_eq
      rw [hattach] at hthreads
      simp only [List.length_append, List.length_map] at hthreads hlength
      omega
    · rintro ⟨hexact,-⟩
      have hall : ∀ vm ∈ vms.map pushNumber, formatted vm = .ok (bits vm) := by
        intro vm hvm
        obtain ⟨v,hv,rfl⟩ := List.mem_map.mp hvm
        exact formatted_exact (hexact v hv)
      rw [newThreads_all hall] at hraised
      cases hraised
  | false =>
    have hthreads := newThreads_of_not_raised s.threads hraised
    have hattach : attach a vms scripts s = ⟨s.threads ++ (vms.map pushNumber).map threadOf,
        addFiles a (scripts.map (fun script => (delivered script.name,scriptSource script))) s.table⟩ := by
      rw [attach, ← replay_eq a scripts s.table h, ← hthreads]
      simp [hraised]
    have hpairs : List.Forall₂ SameThread (s.threads ++ (vms.map pushNumber).map threadOf)
        (s.threads ++ vms.map (fun vm => threadOf (pushInteger vm))) ↔ ∀ vm ∈ vms, Exact vm := by
      rw [forall₂_append_same, List.map_map, List.forall₂_map_left_iff, List.forall₂_map_right_iff,
        List.forall₂_same]
      exact forall₂_congr (fun vm _ => sameThread_iff vm)
    rw [hattach, ← hpairs]
    exact ⟨fun hsame => ⟨hsame.threads,hsame.table⟩,fun hsame => ⟨hsame.1,hsame.2⟩⟩

end Comparison

section Transport

variable (τ : Timing) {p : PointerSize}

def codeState : Backend.CodeState → ℕ
  | .normal => 0
  | .unavailable => 1
  | .binary => 2

def writeScript (s : Backend.Script) : List Bytes :=
  writeString s.name ++ (writeString s.source ++ writeUInt32 (codeState s.state))

def writeSnapshot (vms : List (Handle p)) (scripts : List Backend.Script) : List Bytes :=
  writeUInt32 p.bytes ++ (writeUInt32 vms.length ++ (vms.flatMap (fun vm => writeUInt p vm.val) ++
    (writeUInt32 scripts.length ++ scripts.flatMap writeScript)))

def readLoop {α : Type} (x : Reading α) : ℕ → Reading (List α)
  | 0 => pure []
  | n+1 => x >>= fun v => readLoop x n >>= fun vs => pure (v::vs)

/-- A string that could not be read leaves `str` as it was, a number that could not be read is 0. -/
def readScript : Reading (Bytes × Bytes × ℕ) :=
  readString τ >>= fun name => readString τ >>= fun source => readUInt32 τ >>= fun state =>
    pure (name.getD [],source.getD (name.getD []),state.getD 0)

def pointerSize (ptrSize : Option ℕ) : PointerSize := if ptrSize = some 8 then .x64 else .x86

def readSnapshot : Reading (List ℕ × List (Bytes × Bytes × ℕ)) :=
  readUInt32 τ >>= fun ptrSize => readUInt32 τ >>= fun num =>
    readLoop (readUInt τ (pointerSize ptrSize) >>= fun vm => pure (vm.getD 0)) (num.getD 0) >>= fun vms =>
      readUInt32 τ >>= fun num => readLoop (readScript τ) (num.getD 0) >>= fun scripts =>
        pure (vms,scripts)

theorem takes_readLoop {α β : Type} {x : Reading β} (writes : α → List Bytes) (value : α → β)
    (hx : ∀ v, Takes x (writes v) (value v)) (vs : List α) :
    Takes (readLoop x vs.length) (vs.flatMap writes) (vs.map value) := by
  induction vs with
  | nil => exact takes_pure []
  | cons v vs ih =>
    rw [List.flatMap_cons, ← List.append_nil (List.flatMap writes vs)]
    exact takes_bind (hx v) (takes_bind ih (takes_pure _))

theorem codeState_lt (s : Backend.CodeState) : codeState s < 2^32 := by
  cases s <;> decide

theorem takes_readScript (s : Backend.Script) :
    Takes (readScript τ) (writeScript s) (delivered s.name,delivered s.source,codeState s.state) := by
  apply takes_bind (takes_readString_cstr τ s.name)
  apply takes_bind (takes_readString_cstr τ s.source)
  rw [← List.append_nil (writeUInt32 _)]
  exact takes_bind (takes_readUInt32 τ _ (codeState_lt s.state)) (takes_pure _)

/-- What `attachProcess` reads of the snapshot: the machines, and the fields of the scripts as
`received` has them. -/
theorem takes_readSnapshot (vms : List (Handle p)) (scripts : List Backend.Script)
    (hv : vms.length < 2^32) (hs : scripts.length < 2^32) :
    Takes (readSnapshot τ) (writeSnapshot vms scripts)
      (vms.map Fin.val,scripts.map (fun s => (delivered s.name,delivered s.source,codeState s.state))) := by
  have hp : p.bytes < 2^32 := by cases p <;> decide
  have hsize : pointerSize (some p.bytes) = p := by cases p <;> rfl
  apply takes_bind (takes_readUInt32 τ _ hp)
  apply takes_bind (takes_readUInt32 τ _ hv)
  rw [hsize]
  have hvm (vm : Handle p) :
      Takes (readUInt τ p >>= fun vm => pure (vm.getD 0)) (writeUInt p vm.val) vm.val := by
    rw [← List.append_nil (writeUInt p vm.val)]
    exact takes_bind (takes_readUInt τ p vm.val vm.isLt) (takes_pure _)
  apply takes_bind (takes_readLoop _ Fin.val hvm vms)
  apply takes_bind (takes_readUInt32 τ _ hs)
  rw [← List.append_nil (List.flatMap writeScript scripts)]
  exact takes_bind (takes_readLoop writeScript _ (takes_readScript τ) scripts) (takes_pure _)

/-- What `worker.update` reads of the event of a script. -/
theorem takes_loadScript (vm : Handle p) (s : Backend.Script) :
    Takes (EventStream.update τ p) (header EventId.loadScript vm ++ writeScript s)
      (some (.loadScript vm.val (some (delivered s.name)) (some (delivered s.source))
        (some (codeState s.state)))) := by
  apply EventAgreement.takes_update τ _ (by decide) vm _ _
  apply takes_bind (takes_readString_cstr τ s.name)
  apply takes_bind (takes_readString_cstr τ s.source)
  rw [← List.append_nil (writeUInt32 _)]
  exact takes_bind (takes_readUInt32 τ _ (codeState_lt s.state)) (takes_pure _)

/-- Both ways hand the adapter the same names, sources and states. -/
structure Delivers (vms : List (Handle p)) (scripts : List Backend.Script) : Prop where
  snapshot : vms.length < 2^32 → scripts.length < 2^32 → Takes (readSnapshot τ) (writeSnapshot vms scripts)
    (vms.map Fin.val,scripts.map (fun s => (delivered s.name,delivered s.source,codeState s.state)))
  event : ∀ vm : Handle p, ∀ s ∈ scripts, Takes (EventStream.update τ p) (header EventId.loadScript vm ++ writeScript s)
    (some (.loadScript vm.val (some (delivered s.name)) (some (delivered s.source))
      (some (codeState s.state))))

end Transport

/-- Attaching late shows the same as attaching early exactly if every machine has the same number
on both ways, and no script that can be read is anything but the text that is shown for it. What
is shown is made of the same fields. -/
theorem attach_shows_live_iff (a : LoadHandshake.Adapter) (vms : List UInt64)
    (scripts : List Backend.Script) (s : State)
    (h : ∀ script ∈ scripts, Addable a.fs s.table.baseDir (delivered script.name)) :
    (SameState (attach a vms scripts s) (live a vms scripts s) ↔
      (∀ vm ∈ vms, Exact vm) ∧
        ∀ script ∈ scripts, script.state = .normal → delivered script.source = text "<binary>") ∧
      ∀ (τ : Timing) (p : PointerSize) (handles : List (Handle p)), Delivers τ handles scripts :=
  ⟨sameState_iff a vms scripts s h,fun τ _ handles =>
    ⟨takes_readSnapshot τ handles scripts,fun vm s _ => takes_loadScript τ vm s⟩⟩

def started : State := ⟨[],Files.init none Files.initial⟩

def chunk (name source : String) (state : Backend.CodeState) : Backend.Script :=
  ⟨text name,text source,text name,[],state⟩

theorem inMemory_addable (baseDir name : Bytes) : Addable LoadHandshake.inMemory.fs baseDir name :=
  ⟨_,false,rfl,rfl⟩

theorem attach_shows_live_iff_binary :
    (SameState (attach LoadHandshake.inMemory [4096] [chunk "a.luac" "" .binary] started)
        (live LoadHandshake.inMemory [4096] [chunk "a.luac" "" .binary] started) ↔
      (∀ vm ∈ ([4096] : List UInt64), Exact vm) ∧
        ∀ script ∈ [chunk "a.luac" "" .binary], script.state = .normal →
          delivered script.source = text "<binary>") ∧
      ∀ (τ : Timing) (p : PointerSize) (handles : List (Handle p)),
        Delivers τ handles [chunk "a.luac" "" .binary] :=
  attach_shows_live_iff LoadHandshake.inMemory [4096] [chunk "a.luac" "" .binary] started
    (fun _ _ => inMemory_addable _ _)

theorem readable_script_not_shown :
    (∀ s ∈ [chunk "a.lua" "return 1" .normal],
      Addable LoadHandshake.inMemory.fs started.table.baseDir (delivered s.name)) ∧
      ¬ SameState (attach LoadHandshake.inMemory [4096] [chunk "a.lua" "return 1" .normal] started)
        (live LoadHandshake.inMemory [4096] [chunk "a.lua" "return 1" .normal] started) := by
  refine ⟨fun _ _ => inMemory_addable _ _,fun h => ?_⟩
  have hread := ((sameState_iff _ _ _ _ (fun _ _ => inMemory_addable _ _)).mp h).2 _ List.mem_cons_self rfl
  exact absurd hread (by decide)

end Vecoda.LateAttach
