import Mathlib.Data.Option.Defs
import Mathlib.Data.UInt
import Vecoda.CommandStream
import Vecoda.EventStream

/-!
# A session over the two pipes

The commands that worker.lua and `frontentd_stop` write, and the rounds of
`CommandThreadProc` that read them, carry them out and write the answers, message
by message. The session that is meant has a queue of commands and a list of
events. The writes of one command, and those of one event, are not interrupted.
-/

set_option autoImplicit false

namespace Vecoda.CommandSession
open MessagePipe (Bytes Port leBytes)
open LuaText (cstr)
open Channel (PointerSize Timing writeUInt32 writeUInt writeString writeBool wireText)
open CommandStream Backend HookCallback
open EventStream hiding Fault
open Resuming (Resume resume)

/-- A string as `WriteString(const char*)` of the launcher puts it on the wire. -/
structure WireString where
  bytes : Bytes
  noNul : 0 ∉ bytes
  short : bytes.length < 2^32

inductive Command (p : PointerSize) where
  | resume (how : Resume) (vm : Handle p)
  | break (vm : Handle p)
  | toggleBreakpoint (vm : Handle p) (scriptIndex line : UInt32)
  | evaluate (vm : Handle p) (reqId : UInt32) (expression : WireString) (stackLevel : UInt32)
  | expandTable (vm : Handle p) (reqId scope stackLevel reference : UInt32)
  | loadDone (vm : Handle p)
  | detach (continueRunning : Bool)

def resumeId : Resume → ℕ
  | .continue => CommandId.continue
  | .stepOver => CommandId.stepOver
  | .stepInto => CommandId.stepInto
  | .stepOut => CommandId.stepOut

section Backend

structure Process where
  backend : DebugBackend
  loadEvent : Bool
  detachEvent : Bool
  ignoreExceptions : List Bytes
  continueRunning : Bool
  inLoop : Bool
  fault : Option Fault

/-- `Evaluate` and `ExpandTable` on a machine that lives: what they do to it, whether they
succeed, and their result. -/
structure Interpreter where
  evaluate : DebugBackend → LuaState → Bytes → ℕ → DebugBackend × Bool × CString
  expandTable : DebugBackend → LuaState → ℕ → ℕ → ℕ → DebugBackend × Bool × CString

namespace Process
variable (s : Process)

def onMachine (L : LuaState) (f : DebugBackend → LuaState → DebugBackend) : Process :=
  match s.backend.getVm L with
  | none => {s with fault := some .nullMachine}
  | some _ => {s with backend := f s.backend L}

/-- With whether the breakpoint is set now. -/
def toggleBreakpoint (L : LuaState) (scriptIndex line : ℕ) : Process × Option Bool :=
  match s.backend.toggleBreakpoint L scriptIndex (UInt32.ofNat line) with
  | none => ({s with fault := some .scriptIndex},none)
  | some b =>
    ({s with backend := b},s.backend.scripts[scriptIndex]?.map
      (fun script => (script.toggleBreakpoint (UInt32.ofNat line)).2))

theorem noNul_nil : (0 : UInt8) ∉ ([] : List UInt8) := List.not_mem_nil

def emptyText : CString := ⟨[],noNul_nil⟩

/-- `GetApiForVm` says whether the machine lives; there is an answer in any case. -/
def ask (L : LuaState) (f : DebugBackend → DebugBackend × Bool × CString) :
    Process × Bool × CString :=
  if (s.backend.getVm L).isSome then
    let (b,success,result) := f s.backend
    ({s with backend := b},success,result)
  else (s,false,emptyText)

def detach (continueRunning : Bool) : Process :=
  {s with
    backend := {s.backend with
      hook := fun L => if L ∈ s.backend.vms then .none else s.backend.hook L},
    detachEvent := true, continueRunning := continueRunning, inLoop := continueRunning}

end Process

structure Locals extends CommandStream.Locals where
  scope : ℕ
  reference : ℕ

/-- `events` are the messages in the event pipe; `debugdata` says whether the adapter still
has its session, `closed` whether the command pipe has lost its writer. -/
structure State where
  process : Process
  port : Port
  events : List Bytes
  debugdata : Bool
  closed : Bool

section Round

variable (size : PointerSize) (i : Interpreter) (τ : Timing) (old : Locals) (s : State)

def evaluate (L : LuaState) : State :=
  let (reqId,port) := readUInt32 τ s.port
  let (expression,port) := readString τ port
  let (stackLevel,port) := readUInt32 τ port
  let level := stackLevel.getD old.stackLevel
  let (process,success,result) :=
    s.process.ask L (fun b => i.evaluate b L (expression.getD []) level)
  {s with
    process := process, port := port,
    events := s.events ++ (writeUInt32 EventId.evaluateRet ++ (writeUInt size L ++
      (writeUInt32 (reqId.getD old.reqId) ++ (writeUInt32 level ++
        (writeUInt32 (if success then 1 else 0) ++ writeString result.bytes)))))}

def expandTable (L : LuaState) : State :=
  let (reqId,port) := readUInt32 τ s.port
  let (scope,port) := readUInt32 τ port
  let (stackLevel,port) := readUInt32 τ port
  let (reference,port) := readUInt32 τ port
  let level := stackLevel.getD old.stackLevel
  let reference := reference.getD old.reference
  let (process,success,result) :=
    s.process.ask L (fun b => i.expandTable b L level (scope.getD old.scope) reference)
  {s with
    process := process, port := port,
    events := s.events ++ (writeUInt32 EventId.expandTableRet ++ (writeUInt size L ++
      (writeUInt32 (reqId.getD old.reqId) ++ (writeUInt32 level ++
        (writeUInt32 (if success then 1 else 0) ++ (writeString result.bytes ++
          writeUInt32 reference))))))}

/-- The script is looked up before anything is written: out of the vector there is no event. -/
def toggleBreakpoint (L : LuaState) : State :=
  let (scriptIndex,port) := readUInt32 τ s.port
  let (line,port) := readUInt32 τ port
  let scriptIndex := scriptIndex.getD old.scriptIndex
  let line := line.getD old.line
  let (process,breakpointSet) := s.process.toggleBreakpoint L scriptIndex line
  {s with
    process := process, port := port,
    events := s.events ++ breakpointSet.toList.flatMap (fun breakpointSet =>
      writeUInt32 EventId.setBreakpoint ++ (writeUInt size L ++ (writeUInt32 scriptIndex ++
        (writeUInt32 line ++ writeUInt32 (if breakpointSet then 1 else 0)))))}

def dispatch (commandId : ℕ) (L : LuaState) : State :=
  if commandId = CommandId.continue then
    {s with process := s.process.onMachine L (resume .continue)}
  else if commandId = CommandId.stepOver then
    {s with process := s.process.onMachine L (resume .stepOver)}
  else if commandId = CommandId.stepInto then
    {s with process := s.process.onMachine L (resume .stepInto)}
  else if commandId = CommandId.stepOut then
    {s with process := s.process.onMachine L (resume .stepOut)}
  else if commandId = CommandId.deleteAllBreakpoints then
    {s with process := {s.process with backend := s.process.backend.deleteAllBreakpoints}}
  else if commandId = CommandId.toggleBreakpoint then toggleBreakpoint size τ old s L
  else if commandId = CommandId.break then {s with process := s.process.onMachine L breakVm}
  else if commandId = CommandId.evaluate then evaluate size i τ old s L
  else if commandId = CommandId.expandTable then expandTable size i τ old s L
  else if commandId = CommandId.loadDone then {s with process := {s.process with loadEvent := true}}
  else s

def commandThreadProc : State :=
  match readUInt32 τ s.port with
  | (none,port) => {s with process := {s.process with inLoop := false}, port := port}
  | (some commandId,port) =>
    if commandId = CommandId.detach then
      let (continueRunning,port) := readBool τ port
      {s with
        process := s.process.detach (continueRunning.getD s.process.continueRunning),
        port := port}
    else if commandId = CommandId.ignoreException then
      let (message,port) := readString τ port
      {s with
        process := {s.process with
          ignoreExceptions := message.getD [] :: s.process.ignoreExceptions},
        port := port}
    else
      let (lstate,port) := readUInt τ port size
      dispatch size i τ old {s with port := port} commandId (lstate.getD old.lstate)

end Round

end Backend

section Adapter

/-- The calls of the adapter, with the integers that Lua holds. -/
inductive Call where
  | toggleBreakpoint (file line : ℤ)
  | evaluate (seq : ℤ) (expression : Option Bytes) (nvm stackLevel : ℤ)
  | expand (seq scope nvm stackLevel reference : ℤ)
  | loadDone (nvm : ℤ)
  | resume (how : Resume) (threadId : ℤ)
  | pause (threadId : ℤ)
  | stop (kill : Bool)
  deriving DecidableEq

def uint32 (value : ℤ) : ℕ := (value % 2^32).toNat

def uint64 (value : ℤ) : ℕ := (value % 2^64).toNat

variable (p : PointerSize)

def Call.writes : Call → List Bytes
  | .toggleBreakpoint file line =>
      writeUInt32 CommandId.toggleBreakpoint ++ (writeUInt p 0 ++ (writeUInt32 (uint32 file) ++
        writeUInt32 (uint32 line)))
  | .evaluate seq expression nvm stackLevel =>
      writeUInt32 CommandId.evaluate ++ (writeUInt p (uint64 nvm) ++ (writeUInt32 (uint32 seq) ++
        (writeString (cstr (expression.getD [])) ++ writeUInt32 (uint32 stackLevel))))
  | .expand seq scope nvm stackLevel reference =>
      writeUInt32 CommandId.expandTable ++ (writeUInt p (uint64 nvm) ++ (writeUInt32 (uint32 seq) ++
        (writeUInt32 (uint32 scope) ++ (writeUInt32 (uint32 stackLevel) ++
          writeUInt32 (uint32 reference)))))
  | .loadDone nvm => writeUInt32 CommandId.loadDone ++ writeUInt p (uint64 nvm)
  | .resume how threadId => writeUInt32 (resumeId how) ++ writeUInt p (uint64 threadId)
  | .pause threadId => writeUInt32 CommandId.break ++ writeUInt p (uint64 threadId)
  | .stop kill => writeUInt32 CommandId.detach ++ writeBool (!kill)

end Adapter

section Meaning

theorem uint32_lt (value : ℤ) : uint32 value < 2^32 := by
  have h := Int.emod_lt_of_pos value (show (0:ℤ) < 2^32 by decide)
  unfold uint32
  omega

def toUInt32 (value : ℤ) : UInt32 := UInt32.ofNatLT (uint32 value) (uint32_lt value)

@[simp] theorem toUInt32_toNat (value : ℤ) : (toUInt32 value).toNat = uint32 value := rfl

def toHandle (p : PointerSize) (value : ℤ) : Handle p :=
  ⟨uint64 value % 256^p.bytes,Nat.mod_lt _ (by positivity)⟩

theorem cstr_noNul (s : Bytes) : 0 ∉ cstr s := fun h => by simpa using List.mem_takeWhile_imp h

def toWire (value : Bytes) : WireString where
  bytes := wireText (cstr value)
  noNul := Channel.wireText_noNul _ (cstr_noNul value)
  short := by
    rw [Channel.wireText_length]
    exact Nat.mod_lt _ (by positivity)

def Call.received (p : PointerSize) : Call → Command p
  | .toggleBreakpoint file line => .toggleBreakpoint (toHandle p 0) (toUInt32 file) (toUInt32 line)
  | .evaluate seq expression nvm stackLevel =>
      .evaluate (toHandle p nvm) (toUInt32 seq) (toWire (expression.getD [])) (toUInt32 stackLevel)
  | .expand seq scope nvm stackLevel reference =>
      .expandTable (toHandle p nvm) (toUInt32 seq) (toUInt32 scope) (toUInt32 stackLevel)
          (toUInt32 reference)
  | .loadDone nvm => .loadDone (toHandle p nvm)
  | .resume how threadId => .resume how (toHandle p threadId)
  | .pause threadId => .break (toHandle p threadId)
  | .stop kill => .detach (!kill)

end Meaning

section Wire

variable {p : PointerSize}

def Command.writes : Command p → List Bytes
  | .resume how vm => writeUInt32 (resumeId how) ++ writeUInt p vm.val
  | .break vm => writeUInt32 CommandId.break ++ writeUInt p vm.val
  | .toggleBreakpoint vm scriptIndex line =>
      writeUInt32 CommandId.toggleBreakpoint ++
          (writeUInt p vm.val ++ (writeUInt32 scriptIndex.toNat ++
        writeUInt32 line.toNat))
  | .evaluate vm reqId expression stackLevel =>
      writeUInt32 CommandId.evaluate ++ (writeUInt p vm.val ++ (writeUInt32 reqId.toNat ++
        (writeString expression.bytes ++ writeUInt32 stackLevel.toNat)))
  | .expandTable vm reqId scope stackLevel reference =>
      writeUInt32 CommandId.expandTable ++ (writeUInt p vm.val ++ (writeUInt32 reqId.toNat ++
        (writeUInt32 scope.toNat ++ (writeUInt32 stackLevel.toNat ++ writeUInt32 reference.toNat))))
  | .loadDone vm => writeUInt32 CommandId.loadDone ++ writeUInt p vm.val
  | .detach continueRunning => writeUInt32 CommandId.detach ++ writeBool continueRunning

theorem leBytes_mod (k n : ℕ) : leBytes k (n % 256^k) = leBytes k n := by
  induction k generalizing n with
  | zero => rfl
  | succ k ih =>
    have hlow : n % 256^(k+1) % 256 = n % 256 := Nat.mod_mod_of_dvd n (Dvd.intro_left (256^k) rfl)
    have hhigh : n % 256^(k+1) / 256 = n / 256 % 256^k := by
      rw [pow_succ', Nat.mod_mul_right_div_self]
    rw [leBytes, leBytes, hlow, hhigh, ih]

theorem writeUInt_handle (value : ℤ) : writeUInt p (toHandle p value).val =
    writeUInt p (uint64 value) :=
  congrArg Channel.write (leBytes_mod p.bytes (uint64 value))

theorem writeString_wire (value : Bytes) : writeString (toWire value).bytes =
    writeString (cstr value) := by
  have hwire : wireText (wireText (cstr value)) = wireText (cstr value) :=
    (Channel.wireText_eq_iff _).mpr (toWire value).short
  have hlength : Channel.wireLength (wireText (cstr value)) = Channel.wireLength (cstr value) := by
    rw [← Channel.wireText_length, hwire, Channel.wireText_length]
  rw [toWire, writeString, writeString, hwire, hlength]

theorem received_writes (c : Call) : (c.received p).writes = c.writes p := by
  cases c with
  | toggleBreakpoint file line =>
    simp only [Call.received, Command.writes, Call.writes, writeUInt_handle, toUInt32_toNat]
    rfl
  | evaluate seq expression nvm stackLevel =>
    simp only [Call.received, Command.writes, Call.writes, writeUInt_handle, writeString_wire,
      toUInt32_toNat]
  | expand seq scope nvm stackLevel reference =>
    simp only [Call.received, Command.writes, Call.writes, writeUInt_handle, toUInt32_toNat]
  | loadDone nvm => simp only [Call.received, Command.writes, Call.writes, writeUInt_handle]
  | resume how threadId => simp only [Call.received, Command.writes, Call.writes, writeUInt_handle]
  | pause threadId => simp only [Call.received, Command.writes, Call.writes, writeUInt_handle]
  | stop kill => rfl

end Wire

section Steps

variable {p : PointerSize} (i : Interpreter)

/-- A call of the adapter, the end of its process, a round of the command thread, what the
other threads do to the backend, and an event that they write. -/
inductive Label (p : PointerSize) where
  | call (c : Call)
  | close
  | round (τ : Timing) (old : Locals)
  | threads (b : DebugBackend) (loadEvent : Bool)
  | emit (e : Event p)

def Call.isStop : Call → Bool
  | .stop _ => true
  | _ => false

def step (s : State) : Label p → Option State
  | .call c =>
    if s.debugdata && !s.closed then
      some {s with port := {s.port with pipe := s.port.pipe ++ c.writes p}, debugdata := !c.isStop}
    else none
  | .close => some {s with debugdata := false, closed := true}
  | .round τ old =>
    if s.process.inLoop && s.process.fault.isNone && (s.port.pipe.length ≠ 0 || s.closed) then
      some (commandThreadProc p i τ old s)
    else none
  | .threads b loadEvent =>
    if s.process.fault.isNone then
      some {s with process := {s.process with backend := b, loadEvent := loadEvent}}
    else none
  | .emit e =>
    if s.process.inLoop && s.process.fault.isNone then
      some {s with events := s.events ++ e.writes} else none

structure Session (p : PointerSize) where
  process : Process
  commands : List (Command p)
  events : List (Event p)
  debugdata : Bool
  closed : Bool

def Process.perform (s : Process) : Command p → Process × List (Event p)
  | .resume how vm => (s.onMachine vm (resume how),[])
  | .break vm => (s.onMachine vm breakVm,[])
  | .toggleBreakpoint vm scriptIndex line =>
    let (s,breakpointSet) := s.toggleBreakpoint vm scriptIndex.toNat line.toNat
    (s,breakpointSet.toList.map (fun breakpointSet =>
      .setBreakpoint vm scriptIndex line (if breakpointSet then 1 else 0)))
  | .evaluate vm reqId expression stackLevel =>
    let (s,success,result) := s.ask vm (fun b => i.evaluate b vm expression.bytes stackLevel.toNat)
    (s,[.evaluateRet vm reqId stackLevel success result])
  | .expandTable vm reqId scope stackLevel reference =>
    let (s,success,result) := s.ask vm (fun b =>
      i.expandTable b vm stackLevel.toNat scope.toNat reference.toNat)
    (s,[.expandTableRet vm reqId stackLevel success result reference])
  | .loadDone _ => ({s with loadEvent := true},[])
  | .detach continueRunning => (s.detach continueRunning,[])

def Session.serve (a : Session p) : Session p :=
  match a.commands with
  | [] => {a with process := {a.process with inLoop := false}}
  | c :: rest =>
    let (process,answers) := a.process.perform i c
    {a with process := process, commands := rest, events := a.events ++ answers}

def Session.step (a : Session p) : Label p → Option (Session p)
  | .call c =>
    if a.debugdata && !a.closed then
      some {a with commands := a.commands ++ [c.received p], debugdata := !c.isStop}
    else none
  | .close => some {a with debugdata := false, closed := true}
  | .round _ _ =>
    if a.process.inLoop && a.process.fault.isNone && (a.commands.length ≠ 0 || a.closed) then
      some (a.serve i)
    else none
  | .threads b loadEvent =>
    if a.process.fault.isNone then
      some {a with process := {a.process with backend := b, loadEvent := loadEvent}}
    else none
  | .emit e =>
    if a.process.inLoop && a.process.fault.isNone then
      some {a with events := a.events ++ [e]} else none

end Steps

section Reading

variable {α : Type} {p : PointerSize} (τ : Timing)

/-- The reader takes exactly the messages `ms`, and returns `a`. -/
def Reads (x : Port → Option α × Port) (ms : List Bytes) (a : α) : Prop :=
  ∀ port rest, port.pipe = ms ++ rest → ∃ port', x port = (some a,port') ∧ port'.pipe = rest

theorem reads_readUInt32 (value : ℕ) (h : value < 2^32) :
    Reads (CommandStream.readUInt32 τ) (writeUInt32 value) value :=
  fun _ _ hp => readNumber_message (by decide) h hp

theorem reads_readUInt (vm : Handle p) :
    Reads (fun port => CommandStream.readUInt τ port p) (writeUInt p vm.val) vm.val := by
  intro port rest hp
  have hmessage : writeUInt p vm.val = [leBytes p.bytes vm.val] := by
    cases p <;> simp [writeUInt, Channel.write, leBytes, PointerSize.bytes]
  rw [hmessage] at hp
  exact readNumber_message (by cases p <;> decide) vm.isLt hp

theorem reads_readBool (value : Bool) :
    Reads (CommandStream.readBool τ) (writeBool value) value := by
  intro port rest hp
  have hlt : (if value then 1 else 0) < 2^32 := by cases value <;> decide
  obtain ⟨port',hread,hrest⟩ := reads_readUInt32 τ _ hlt port rest hp
  refine ⟨port',?_,hrest⟩
  rw [CommandStream.readBool, hread]
  cases value <;> rfl

theorem reads_message (m : Bytes) (hm : m ≠ []) (port : Port) (rest : List Bytes)
    (hp : port.pipe = m :: rest) : ∃ port', CommandStream.read τ port m.length =
      (some ⟨m,false,port.reads⟩,port') ∧ port'.pipe = rest := by
  have hlength : m.length ≠ 0 := fun h => hm (List.length_eq_zero_iff.mp h)
  have hreceive : MessagePipe.receive m.length port =
      .ok (⟨m,false,port.reads⟩,⟨rest,port.taken ++ [m],port.reads+1⟩) := by
    simp [MessagePipe.receive, hp]
  refine ⟨⟨rest,port.taken ++ [m],port.reads+1⟩,?_,rfl⟩
  rw [CommandStream.read, if_neg hlength, hreceive]
  simp

theorem reads_readString (value : WireString) :
    Reads (CommandStream.readString τ) (writeString value.bytes) value.bytes := by
  intro port rest hp
  have hwire : wireText value.bytes = value.bytes := (Channel.wireText_eq_iff _).mpr value.short
  have hlength : Channel.wireLength value.bytes = value.bytes.length := by
    rw [← Channel.wireText_length, hwire]
  rw [writeString, hwire, hlength, List.append_assoc] at hp
  obtain ⟨port',hread,hport⟩ := reads_readUInt32 τ _ value.short port _ hp
  rw [CommandStream.readString, hread]
  dsimp only
  by_cases hz : value.bytes = []
  · rw [Channel.write, if_pos hz] at hport
    rw [hz, List.length_nil, if_pos rfl]
    exact ⟨port',rfl,hport⟩
  · rw [Channel.write, if_neg hz] at hport
    obtain ⟨last,hmessage,hrest⟩ := reads_message τ value.bytes hz port' rest hport
    have hne : value.bytes.length ≠ 0 := fun h => hz (List.length_eq_zero_iff.mp h)
    refine ⟨last,?_,hrest⟩
    rw [if_neg hne, hmessage, Option.map_some, Channel.filled_full _ _ _ rfl,
      LuaText.cstr_id _ value.noNul]

end Reading

section Rounds

variable {p : PointerSize} (i : Interpreter) (τ : Timing) (old : Locals) {s : State}
    {rest : List Bytes}

/-- The round carries the command out, and leaves the messages behind it. -/
def Serves (s : State) (c : Command p) (rest : List Bytes) : Prop :=
  ∃ port, commandThreadProc p i τ old s = {s with
      process := (s.process.perform i c).1, port := port,
      events := s.events ++ stream (s.process.perform i c).2} ∧ port.pipe = rest

/-- Every command but Detach names its machine. -/
theorem round_dispatch {commandId : ℕ} (hid : commandId < 2^32) (hd : commandId ≠ CommandId.detach)
    (hi : commandId ≠ CommandId.ignoreException) (vm : Handle p)
    (hp : s.port.pipe = writeUInt32 commandId ++ (writeUInt p vm.val ++ rest)) :
    ∃ port, commandThreadProc p i τ old s =
        dispatch p i τ old {s with port := port} commandId vm.val ∧
      port.pipe = rest := by
  obtain ⟨port,hread,hport⟩ := reads_readUInt32 τ commandId hid s.port _ hp
  obtain ⟨port',hvm,hrest⟩ := reads_readUInt τ vm port _ hport
  refine ⟨port',?_,hrest⟩
  rw [commandThreadProc, hread]
  dsimp only at hvm ⊢
  rw [if_neg hd, if_neg hi, hvm, Option.getD_some]

theorem serves_machine (commandId : ℕ) (hid : commandId < 2^32) (hd : commandId ≠ CommandId.detach)
    (hi : commandId ≠ CommandId.ignoreException) {c : Command p} {vm : Handle p} {process : Process}
    (hwrites : c.writes = writeUInt32 commandId ++ writeUInt p vm.val)
    (hperform : s.process.perform i c = (process,[]))
    (hdispatch : ∀ port, dispatch p i τ old {s with port := port} commandId vm.val =
      {s with port := port, process := process})
    (hp : s.port.pipe = c.writes ++ rest) : Serves i τ old s c rest := by
  rw [hwrites, List.append_assoc] at hp
  obtain ⟨port,hround,hrest⟩ := round_dispatch i τ old hid hd hi vm hp
  refine ⟨port,?_,hrest⟩
  rw [hround, hdispatch, hperform, stream, List.flatMap_nil, List.append_nil]

theorem serves_toggleBreakpoint (vm : Handle p) (scriptIndex line : UInt32)
    (hp : s.port.pipe = (Command.toggleBreakpoint vm scriptIndex line).writes ++ rest) :
    Serves i τ old s (.toggleBreakpoint vm scriptIndex line) rest := by
  rw [Command.writes, List.append_assoc, List.append_assoc, List.append_assoc] at hp
  obtain ⟨port,hround,hport⟩ := round_dispatch i τ old (by decide) (by decide) (by decide) vm hp
  obtain ⟨port₁,hscript,hport₁⟩ := reads_readUInt32 τ _ scriptIndex.toNat_lt port _ hport
  obtain ⟨port₂,hline,hrest⟩ := reads_readUInt32 τ _ line.toNat_lt port₁ _ hport₁
  refine ⟨port₂,?_,hrest⟩
  have hdispatch : dispatch p i τ old {s with port := port} CommandId.toggleBreakpoint vm.val =
      toggleBreakpoint p τ old {s with port := port} vm.val := rfl
  rw [hround, hdispatch, toggleBreakpoint, hscript]
  dsimp only
  rw [hline, Option.getD_some, Option.getD_some, Process.perform]
  dsimp only
  rw [stream, List.flatMap_map]
  have hwrites (breakpointSet : Bool) :
      (Event.setBreakpoint vm scriptIndex line (if breakpointSet then 1 else 0)).writes =
        writeUInt32 EventId.setBreakpoint ++ (writeUInt p vm.val ++ (writeUInt32 scriptIndex.toNat ++
          (writeUInt32 line.toNat ++ writeUInt32 (if breakpointSet then 1 else 0)))) := by
    rw [Event.writes, EventStream.header, List.append_assoc]
    cases breakpointSet <;> rfl
  simp only [hwrites]

theorem serves_evaluate (vm : Handle p) (reqId : UInt32) (expression : WireString)
    (stackLevel : UInt32)
    (hp : s.port.pipe = (Command.evaluate vm reqId expression stackLevel).writes ++ rest) :
    Serves i τ old s (.evaluate vm reqId expression stackLevel) rest := by
  rw [Command.writes, List.append_assoc, List.append_assoc, List.append_assoc,
    List.append_assoc] at hp
  obtain ⟨port,hround,hport⟩ := round_dispatch i τ old (by decide) (by decide) (by decide) vm hp
  obtain ⟨port₁,hreq,hport₁⟩ := reads_readUInt32 τ _ reqId.toNat_lt port _ hport
  obtain ⟨port₂,hexpression,hport₂⟩ := reads_readString τ expression port₁ _ hport₁
  obtain ⟨port₃,hlevel,hrest⟩ := reads_readUInt32 τ _ stackLevel.toNat_lt port₂ _ hport₂
  refine ⟨port₃,?_,hrest⟩
  have hdispatch : dispatch p i τ old {s with port := port} CommandId.evaluate vm.val =
      evaluate p i τ old {s with port := port} vm.val := rfl
  rw [hround, hdispatch, evaluate, hreq]
  dsimp only
  rw [hexpression]
  dsimp only
  rw [hlevel, Option.getD_some, Option.getD_some, Option.getD_some, Process.perform, stream,
    List.flatMap_singleton, Event.writes, EventStream.header, writeBool, List.append_assoc]

theorem serves_expandTable (vm : Handle p) (reqId scope stackLevel reference : UInt32)
    (hp : s.port.pipe = (Command.expandTable vm reqId scope stackLevel reference).writes ++ rest) :
    Serves i τ old s (.expandTable vm reqId scope stackLevel reference) rest := by
  rw [Command.writes, List.append_assoc, List.append_assoc, List.append_assoc, List.append_assoc,
    List.append_assoc] at hp
  obtain ⟨port,hround,hport⟩ := round_dispatch i τ old (by decide) (by decide) (by decide) vm hp
  obtain ⟨port₁,hreq,hport₁⟩ := reads_readUInt32 τ _ reqId.toNat_lt port _ hport
  obtain ⟨port₂,hscope,hport₂⟩ := reads_readUInt32 τ _ scope.toNat_lt port₁ _ hport₁
  obtain ⟨port₃,hlevel,hport₃⟩ := reads_readUInt32 τ _ stackLevel.toNat_lt port₂ _ hport₂
  obtain ⟨port₄,hreference,hrest⟩ := reads_readUInt32 τ _ reference.toNat_lt port₃ _ hport₃
  refine ⟨port₄,?_,hrest⟩
  have hdispatch : dispatch p i τ old {s with port := port} CommandId.expandTable vm.val =
      expandTable p i τ old {s with port := port} vm.val := rfl
  rw [hround, hdispatch, expandTable, hreq]
  dsimp only
  rw [hscope]
  dsimp only
  rw [hlevel]
  dsimp only
  rw [hreference, Option.getD_some, Option.getD_some, Option.getD_some, Option.getD_some,
    Process.perform, stream, List.flatMap_singleton, Event.writes, EventStream.header, writeBool,
    List.append_assoc]

theorem serves_detach (continueRunning : Bool)
    (hp : s.port.pipe = (Command.detach continueRunning : Command p).writes ++ rest) :
    Serves i τ old s (.detach continueRunning : Command p) rest := by
  rw [Command.writes, List.append_assoc] at hp
  obtain ⟨port,hread,hport⟩ := reads_readUInt32 τ _ (by decide) s.port _ hp
  obtain ⟨port₁,hcontinue,hrest⟩ := reads_readBool τ continueRunning port _ hport
  refine ⟨port₁,?_,hrest⟩
  rw [commandThreadProc, hread]
  dsimp only
  rw [if_pos rfl, hcontinue, Option.getD_some, Process.perform, stream, List.flatMap_nil,
    List.append_nil]

theorem serves (c : Command p) (hp : s.port.pipe = c.writes ++ rest) : Serves i τ old s c rest := by
  cases c with
  | resume how vm =>
    have hdispatch (port : Port) : dispatch p i τ old {s with port := port} (resumeId how) vm.val =
        {s with port := port, process := s.process.onMachine vm (resume how)} := by
      cases how <;> rfl
    exact serves_machine i τ old (resumeId how) (by cases how <;> decide) (by cases how <;> decide)
      (by cases how <;> decide) rfl rfl hdispatch hp
  | «break» vm =>
    exact serves_machine i τ old CommandId.break (by decide) (by decide) (by decide) rfl rfl
        (fun _ => rfl) hp
  | toggleBreakpoint vm scriptIndex line =>
      exact serves_toggleBreakpoint i τ old vm scriptIndex line hp
  | evaluate vm reqId expression stackLevel =>
    exact serves_evaluate i τ old vm reqId expression stackLevel hp
  | expandTable vm reqId scope stackLevel reference =>
    exact serves_expandTable i τ old vm reqId scope stackLevel reference hp
  | loadDone vm =>
    exact serves_machine i τ old CommandId.loadDone (by decide) (by decide) (by decide) rfl rfl
      (fun _ => rfl) hp
  | detach continueRunning => exact serves_detach i τ old continueRunning hp

end Rounds

section Agreement

variable {p : PointerSize} (i : Interpreter)

/-- The pipes hold the messages of what is queued and of what has been written. -/
structure Carries (s : State) (a : Session p) : Prop where
  process : s.process = a.process
  commands : s.port.pipe = a.commands.flatMap Command.writes
  events : s.events = stream a.events
  debugdata : s.debugdata = a.debugdata
  closed : s.closed = a.closed

def Session.wire (a : Session p) : State where
  process := a.process
  port := Port.fresh (a.commands.flatMap Command.writes)
  events := stream a.events
  debugdata := a.debugdata
  closed := a.closed

theorem writes_ne_nil (c : Command p) : c.writes ≠ [] := by
  cases c with
  | resume how vm => cases how <;> exact List.cons_ne_nil _ _
  | _ => exact List.cons_ne_nil _ _

theorem waiting_iff (commands : List (Command p)) :
    (commands.flatMap Command.writes).length = 0 ↔ commands.length = 0 := by
  cases commands with
  | nil => exact Iff.rfl
  | cons c rest =>
    simpa only [List.length_eq_zero_iff, List.flatMap_cons, List.append_eq_nil_iff, reduceCtorEq,
      iff_false, not_and] using fun h => absurd h (writes_ne_nil c)

theorem carries_round {s : State} {a : Session p} (h : Carries s a) (τ : Timing) (old : Locals) :
    Carries (commandThreadProc p i τ old s) (a.serve i) := by
  obtain ⟨process,commands,events,debugdata,closed⟩ := a
  cases commands with
  | nil =>
    have hread : CommandStream.readUInt32 τ s.port = (none,s.port) :=
      readNumber_closed (by decide) h.commands
    rw [commandThreadProc, hread, Session.serve]
    exact ⟨by rw [h.process],h.commands,h.events,h.debugdata,h.closed⟩
  | cons c rest =>
    have hpipe : s.port.pipe = c.writes ++ rest.flatMap Command.writes := h.commands
    obtain ⟨port,hround,hrest⟩ := serves i τ old c hpipe
    have hprocess : s.process = process := h.process
    have hevents : s.events = stream events := h.events
    rw [hround, Session.serve, hprocess, hevents]
    exact ⟨rfl,hrest,List.flatMap_append.symm,h.debugdata,h.closed⟩

theorem carries_step {s : State} {a : Session p} (l : Label p) (h : Carries s a) :
    Option.Rel Carries (step i s l) (a.step i l) := by
  cases l with
  | call c =>
    rw [step, Session.step, h.debugdata, h.closed]
    split
    · refine .some ⟨h.process,?_,h.events,rfl,rfl⟩
      rw [List.flatMap_append, List.flatMap_singleton, received_writes, ← h.commands]
    · exact .none
  | close => exact .some ⟨h.process,h.commands,h.events,rfl,rfl⟩
  | round τ old =>
    rw [step, Session.step, h.process, h.closed, h.commands]
    simp only [ne_eq, waiting_iff]
    split
    · exact .some (carries_round i h τ old)
    · exact .none
  | threads b loadEvent =>
    rw [step, Session.step, h.process]
    split
    · exact .some ⟨rfl,h.commands,h.events,h.debugdata,h.closed⟩
    · exact .none
  | emit e =>
    rw [step, Session.step, h.process]
    split
    · refine .some ⟨rfl,h.commands,?_,h.debugdata,h.closed⟩
      rw [h.events, stream, stream, List.flatMap_append, List.flatMap_singleton]
    · exact .none

theorem carries_wire (a : Session p) : Carries a.wire a := ⟨rfl,rfl,rfl,rfl,rfl⟩

theorem carries_run (a : Session p) (labels : List (Label p)) :
    Option.Rel Carries (labels.foldlM (step i) a.wire) (labels.foldlM (Session.step i) a) :=
  Transitions.rel_foldlM (fun _ _ l => carries_step i l) (carries_wire a) labels

/-- Over the messages, a session goes the way that is meant, whatever the order of its steps. -/
theorem session_simulates (a : Session p) (labels : List (Label p)) :
    Option.Rel Carries (labels.foldlM (step i) a.wire) (labels.foldlM (Session.step i) a) :=
  carries_run i a labels

end Agreement

section Answers

variable {p : PointerSize} (i : Interpreter)

inductive Asked (p : PointerSize) where
  | evaluate (vm : Handle p) (reqId stackLevel : UInt32)
  | expandTable (vm : Handle p) (reqId stackLevel reference : UInt32)
  deriving DecidableEq

def Command.asks : Command p → Option (Asked p)
  | .evaluate vm reqId _ stackLevel => some (.evaluate vm reqId stackLevel)
  | .expandTable vm reqId _ stackLevel reference =>
      some (.expandTable vm reqId stackLevel reference)
  | _ => none

def answers : Event p → Option (Asked p)
  | .evaluateRet vm reqId stackLevel _ _ => some (.evaluate vm reqId stackLevel)
  | .expandTableRet vm reqId stackLevel _ _ reference =>
      some (.expandTable vm reqId stackLevel reference)
  | _ => none

def Label.sends : Label p → Option (Command p)
  | .call c => some (c.received p)
  | _ => none

def Label.Quiet : Label p → Prop
  | .emit e => answers e = none
  | _ => True

theorem perform_answers (s : Process) (c : Command p) :
    (s.perform i c).2.filterMap answers = [c].filterMap Command.asks := by
  cases c with
  | toggleBreakpoint vm scriptIndex line =>
    rw [Process.perform]
    obtain ⟨s,breakpointSet⟩ := s.toggleBreakpoint vm scriptIndex.toNat line.toNat
    cases breakpointSet <;> rfl
  | _ => rfl

/-- What has been sent is performed from its front on, and answered in that order. -/
def Answered (labels : List (Label p)) (a : Session p) : Prop :=
  ∃ performed, performed ++ a.commands = labels.filterMap Label.sends ∧
    a.events.filterMap answers = performed.filterMap Command.asks

theorem answered_step {labels : List (Label p)} {a t : Session p} {l : Label p} (hl : l.Quiet)
    (h : Answered labels a) (hs : a.step i l = some t) : Answered (labels ++ [l]) t := by
  obtain ⟨performed,hsent,hanswers⟩ := h
  rw [Answered, List.filterMap_append, ← hsent]
  cases l with
  | call c =>
    rw [Session.step] at hs
    split at hs
    · cases hs
      exact ⟨performed,(List.append_assoc _ _ _).symm,hanswers⟩
    · cases hs
  | close =>
    cases hs
    exact ⟨performed,(List.append_nil _).symm,hanswers⟩
  | round τ old =>
    rw [Session.step] at hs
    split at hs
    · cases hs
      rw [Session.serve]
      split
      · next hnil => exact ⟨performed,by rw [hnil]; exact (List.append_nil _).symm,hanswers⟩
      · next c rest hcons =>
        refine ⟨performed ++ [c],?_,?_⟩
        · rw [hcons]
          simp [Label.sends]
        · rw [List.filterMap_append, List.filterMap_append, perform_answers, hanswers]
    · cases hs
  | threads b loadEvent =>
    rw [Session.step] at hs
    split at hs
    · cases hs
      exact ⟨performed,(List.append_nil _).symm,hanswers⟩
    · cases hs
  | emit e =>
    rw [Session.step] at hs
    split at hs
    · cases hs
      have hquiet : [e].filterMap answers = [] := by
        rw [List.filterMap_cons_none hl, List.filterMap_nil]
      refine ⟨performed,(List.append_nil _).symm,?_⟩
      rw [List.filterMap_append, hquiet, List.append_nil, hanswers]
    · cases hs

def Session.start (p : PointerSize) (s : Process) : Session p := ⟨s,[],[],true,false⟩

/-- No command is lost, doubled or overtaken, and each evaluation is answered once, in order. -/
theorem answered_in_order (s : Process) (labels : List (Label p)) (t : State)
    (hquiet : ∀ l ∈ labels, l.Quiet)
    (hrun : labels.foldlM (step i) (Session.start p s).wire = some t) :
    ∃ (performed pending : List (Command p)) (events : List (Event p)),
      performed ++ pending = labels.filterMap Label.sends ∧
      t.port.pipe = pending.flatMap Command.writes ∧ t.events = stream events ∧
      events.filterMap answers = performed.filterMap Command.asks := by
  have hrel := carries_run i (Session.start p s) labels
  rw [hrun] at hrel
  generalize ha : labels.foldlM (Session.step i) (Session.start p s) = r at hrel
  cases hrel with
  | @some _ a hcarries =>
    have hstart : Answered [] (Session.start p s) := ⟨[],rfl,rfl⟩
    obtain ⟨performed,hsent,hanswers⟩ : Answered labels a :=
      Transitions.foldlM_history (fun _ _ _ _ hl h hs =>
          answered_step i hl h hs) hstart labels hquiet ha
    exact ⟨performed,a.commands,a.events,hsent,hcarries.commands,hcarries.events,hanswers⟩

def attached : Process :=
  {backend := (DebugBackend.initial.attachState 36 true true).1, loadEvent := false,
   detachEvent := false, ignoreExceptions := [], continueRunning := false, inLoop := true,
   fault := none}

def seven : Interpreter :=
  ⟨fun b _ _ _ => (b,true,⟨[55],by decide⟩),fun b _ _ _ _ => (b,true,⟨[55],by decide⟩)⟩

def twoEvaluations : List (Label .x86) :=
  let round := .round ⟨fun _ => false,fun _ _ => 0⟩ ⟨⟨0,0,0,0,0⟩,0,0⟩
  [.call (.evaluate 1 (some [120]) 28 0),.call (.evaluate 2 (some [120]) 36 1),round,round]

theorem twoEvaluations_answered :
    ∃ t, twoEvaluations.foldlM (step seven) (Session.start .x86 attached).wire = some t ∧
    ∃ (performed pending : List (Command .x86)) (events : List (Event .x86)),
      performed ++ pending = twoEvaluations.filterMap Label.sends ∧
      t.port.pipe = pending.flatMap Command.writes ∧ t.events = stream events ∧
      events.filterMap answers = performed.filterMap Command.asks := by
  obtain ⟨t,ht⟩ := Option.isSome_iff_exists.mp
    (rfl : (twoEvaluations.foldlM (step seven) (Session.start .x86 attached).wire).isSome = true)
  have hquiet : ∀ l ∈ twoEvaluations, l.Quiet := by
    simp [twoEvaluations, Label.Quiet]
  exact ⟨t,ht,answered_in_order seven attached twoEvaluations t hquiet ht⟩

end Answers

end Vecoda.CommandSession
