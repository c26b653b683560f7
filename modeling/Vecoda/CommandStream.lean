import Vecoda.Channel
import Vecoda.Reattach

/-!
# The command stream

The readers of the backend's `Channel`, over a pipe that is closed behind its
messages, and one round of `CommandThreadProc`. No result of a reader is looked
at but that of the command's number; a variable that was not read holds what
stood in its place before. Asserts are compiled out.
-/

set_option autoImplicit false

namespace Vecoda.CommandStream
open MessagePipe (Bytes Port Piece ofLE)
open LuaText (cstr)
open Channel (Timing PointerSize filled)
open Backend HookCallback Transitions
open Resuming (Resume resume)

section Readers

variable (τ : Timing) (port : Port)

/-- `Read`: a closed pipe and a message with more bytes make it fail, and a short message
that completes asynchronously. -/
def read (length : ℕ) : Option Piece × Port :=
  if length = 0 then (some ⟨[],false,0⟩,port)
  else match MessagePipe.receive length port with
    | .error _ => (none,port)
    | .ok (p,port) =>
      (if !p.more && (!τ.pending p.index || p.data.length == length) then some p else none,port)

def readNumber (bytes : ℕ) : Option ℕ × Port :=
  let (p,port) := read τ port bytes
  (p.map (fun p => ofLE (filled (τ.stale p.index) bytes p.data)),port)

def readUInt32 : Option ℕ × Port := readNumber τ port 4

def readUInt (size : PointerSize) : Option ℕ × Port := readNumber τ port size.bytes

def readString : Option Bytes × Port :=
  match readUInt32 τ port with
  | (none,port) => (none,port)
  | (some length,port) =>
    if length = 0 then (some [],port)
    else
      let (p,port) := read τ port length
      (p.map (fun p => cstr (filled (τ.stale p.index) length p.data)),port)

def readBool : Option Bool × Port :=
  let (temp,port) := readUInt32 τ port
  (temp.map (fun t => t ≠ 0),port)

end Readers

namespace CommandId
def «continue» : ℕ := 1
def stepOver : ℕ := 2
def stepInto : ℕ := 3
def toggleBreakpoint : ℕ := 4
def «break» : ℕ := 5
def evaluate : ℕ := 6
def expandTable : ℕ := 7
def detach : ℕ := 8
def loadDone : ℕ := 12
def ignoreException : ℕ := 13
def deleteAllBreakpoints : ℕ := 14
def stepOut : ℕ := 15
end CommandId

/-- `results` are the EvaluateRet and ExpandTableRet events, by state, request and level. -/
structure State where
  backend : DebugBackend
  port : Port
  continueRunning : Bool
  inLoop : Bool
  loadEvent : Bool
  detachEvent : Bool
  ignoreExceptions : List Bytes
  results : List (ℕ × ℕ × ℕ)

structure Locals where
  lstate : ℕ
  scriptIndex : ℕ
  line : ℕ
  reqId : ℕ
  stackLevel : ℕ

inductive Fault where
  | nullMachine
  | scriptIndex
  deriving DecidableEq, Repr

/-- `unread`: the command was carried out with a variable that was not read. `void`: it is
incomplete, or names a machine that does not live. -/
inductive Outcome where
  | crash (f : Fault)
  | served (s : State) (unread void : Bool)

section Round

variable (size : PointerSize) (τ : Timing) (old : Locals) (evaluation : DebugBackend → DebugBackend)

def onMachine (s : State) (lstate : Option ℕ) (f : DebugBackend → LuaState → DebugBackend) : Outcome :=
  let L := lstate.getD old.lstate
  match s.backend.getVm L with
  | none => .crash .nullMachine
  | some _ => .served {s with backend := f s.backend L} lstate.isNone lstate.isNone

def toggleBreakpoint (s : State) (lstate : Option ℕ) : Outcome :=
  let (scriptIndex,port) := readUInt32 τ s.port
  let (line,port) := readUInt32 τ port
  let unread := lstate.isNone || scriptIndex.isNone || line.isNone
  match s.backend.toggleBreakpoint (lstate.getD old.lstate) (scriptIndex.getD old.scriptIndex)
      (UInt32.ofNat (line.getD old.line)) with
  | none => .crash .scriptIndex
  | some b => .served {s with backend := b, port := port} unread unread

/-- `GetApiForVm` says whether the machine lives; the result is written in any case. -/
def answer (s : State) (lstate reqId stackLevel : Option ℕ) (unread : Bool) : Outcome :=
  let L := lstate.getD old.lstate
  let lives := (s.backend.getVm L).isSome
  .served {s with
    backend := if lives then evaluation s.backend else s.backend,
    results := s.results ++ [(L,reqId.getD old.reqId,stackLevel.getD old.stackLevel)]} unread (unread || !lives)

def evaluate (s : State) (lstate : Option ℕ) : Outcome :=
  let (reqId,port) := readUInt32 τ s.port
  let (expression,port) := readString τ port
  let (stackLevel,port) := readUInt32 τ port
  answer old evaluation {s with port := port} lstate reqId stackLevel
    (lstate.isNone || reqId.isNone || expression.isNone || stackLevel.isNone)

def expandTable (s : State) (lstate : Option ℕ) : Outcome :=
  let (reqId,port) := readUInt32 τ s.port
  let (scope,port) := readUInt32 τ port
  let (stackLevel,port) := readUInt32 τ port
  let (reference,port) := readUInt32 τ port
  answer old evaluation {s with port := port} lstate reqId stackLevel
    (lstate.isNone || reqId.isNone || scope.isNone || stackLevel.isNone || reference.isNone)

def detach (s : State) : Outcome :=
  let (continueRunning,port) := readBool τ s.port
  .served {s with
    backend := {s.backend with hook := fun L => if L ∈ s.backend.vms then .none else s.backend.hook L},
    port := port, detachEvent := true, continueRunning := continueRunning.getD s.continueRunning,
    inLoop := continueRunning.getD s.continueRunning} continueRunning.isNone continueRunning.isNone

def ignoreException (s : State) : Outcome :=
  let (message,port) := readString τ s.port
  .served {s with port := port, ignoreExceptions := message.getD [] :: s.ignoreExceptions}
    message.isNone message.isNone

def dispatch (s : State) (commandId : ℕ) (lstate : Option ℕ) : Outcome :=
  if commandId = CommandId.continue then onMachine old s lstate (resume .continue)
  else if commandId = CommandId.stepOver then onMachine old s lstate (resume .stepOver)
  else if commandId = CommandId.stepInto then onMachine old s lstate (resume .stepInto)
  else if commandId = CommandId.stepOut then onMachine old s lstate (resume .stepOut)
  else if commandId = CommandId.deleteAllBreakpoints then
    .served {s with backend := s.backend.deleteAllBreakpoints} false lstate.isNone
  else if commandId = CommandId.toggleBreakpoint then toggleBreakpoint τ old s lstate
  else if commandId = CommandId.break then onMachine old s lstate breakVm
  else if commandId = CommandId.evaluate then evaluate τ old evaluation s lstate
  else if commandId = CommandId.expandTable then expandTable τ old evaluation s lstate
  else if commandId = CommandId.loadDone then .served {s with loadEvent := true} false lstate.isNone
  else .served s false lstate.isNone

def commandThreadProc (s : State) : Outcome :=
  match readUInt32 τ s.port with
  | (none,port) => .served {s with port := port, inLoop := false} false false
  | (some commandId,port) =>
    let s := {s with port := port}
    if commandId = CommandId.detach then detach τ s
    else if commandId = CommandId.ignoreException then ignoreException τ s
    else
      let (lstate,port) := readUInt τ s.port size
      dispatch τ old evaluation {s with port := port} commandId lstate

end Round

structure SameState (b b' : DebugBackend) : Prop where
  scripts : b'.scripts = b.scripts
  nameToScript : b'.nameToScript = b.nameToScript
  vms : b'.vms = b.vms
  stateToVm : b'.stateToVm = b.stateToVm
  hook : b'.hook = b.hook

/-- No null machine, no index outside of the scripts, nothing done with a field that was not
read, and nothing changed for what is incomplete or dead. -/
def Harmless (s : State) : Outcome → Prop
  | .crash _ => False
  | .served s' unread void => unread = false ∧ (void = true → SameState s.backend s'.backend)

structure NoBreakpoint (b : DebugBackend) : Prop where
  scripts : ∀ sc ∈ b.scripts, sc.breakpoints = []
  machines : ∀ e ∈ b.stateToVm, e.2.haveActiveBreakpoints = false ∧ e.2.breakpointInStack = false

section Aim

variable (size : PointerSize) (τ : Timing) (s : State)

def NamesMachine (lstate : Option ℕ) : Prop := ∃ L, lstate = some L ∧ (s.backend.getVm L).isSome = true

def NamesScript : Prop :=
  let (scriptIndex,port) := readUInt32 τ s.port
  (∃ i, scriptIndex = some i ∧ i < s.backend.scripts.length) ∧ (readUInt32 τ port).1.isSome = true

def EvaluateRead : Prop :=
  let (reqId,port) := readUInt32 τ s.port
  let (expression,port) := readString τ port
  reqId.isSome = true ∧ expression.isSome = true ∧ (readUInt32 τ port).1.isSome = true

def ExpandTableRead : Prop :=
  let (reqId,port) := readUInt32 τ s.port
  let (scope,port) := readUInt32 τ port
  let (stackLevel,port) := readUInt32 τ port
  reqId.isSome = true ∧ scope.isSome = true ∧ stackLevel.isSome = true ∧
    (readUInt32 τ port).1.isSome = true

def usesMachine (commandId : ℕ) : Bool :=
  [CommandId.continue,CommandId.stepOver,CommandId.stepInto,CommandId.stepOut,CommandId.break].contains commandId

def AimedOnState (commandId : ℕ) (lstate : Option ℕ) : Prop :=
  if usesMachine commandId then NamesMachine s lstate
  else if commandId = CommandId.deleteAllBreakpoints then lstate.isSome = true ∨ NoBreakpoint s.backend
  else if commandId = CommandId.toggleBreakpoint then lstate.isSome = true ∧ NamesScript τ s
  else if commandId = CommandId.evaluate then lstate.isSome = true ∧ EvaluateRead τ s
  else if commandId = CommandId.expandTable then lstate.isSome = true ∧ ExpandTableRead τ s
  else True

/-- The command that stands in the stream names what lives, and has its fields. -/
def Aimed : Prop :=
  match readUInt32 τ s.port with
  | (none,_) => True
  | (some commandId,port) =>
    if commandId = CommandId.detach then (readBool τ port).1.isSome = true
    else if commandId = CommandId.ignoreException then (readString τ port).1.isSome = true
    else
      let (lstate,port) := readUInt τ port size
      AimedOnState τ {s with port := port} commandId lstate

end Aim

section Rounds

variable {size : PointerSize} {τ : Timing} {old : Locals} {evaluation : DebugBackend → DebugBackend}
  {s : State}

theorem onMachine_harmless (lstate : Option ℕ) (f : DebugBackend → LuaState → DebugBackend) :
    Harmless s (onMachine old s lstate f) ↔ NamesMachine s lstate := by
  unfold onMachine
  dsimp only
  cases lstate with
  | none =>
    have hnames : ¬ NamesMachine s none := fun ⟨L,hL,_⟩ => by cases hL
    split
    · exact ⟨fun h => h.elim,fun h => absurd h hnames⟩
    · exact ⟨fun h => absurd h.1 (by simp),fun h => absurd h hnames⟩
  | some L =>
    rw [Option.getD_some]
    cases hvm : s.backend.getVm L with
    | none =>
      refine ⟨fun h => h.elim,fun ⟨L',hL,hlives⟩ => ?_⟩
      cases hL
      rw [hvm] at hlives
      cases hlives
    | some vm => exact ⟨fun _ => ⟨L,rfl,by rw [hvm]; rfl⟩,fun _ => ⟨rfl,fun h => by cases h⟩⟩

theorem toggleBreakpoint_isSome (b : DebugBackend) (L : LuaState) (i : ℕ) (line : UInt32) :
    (b.toggleBreakpoint L i line).isSome = true ↔ i < b.scripts.length := by
  unfold DebugBackend.toggleBreakpoint
  cases hscript : b.scripts[i]? with
  | none => simpa using List.getElem?_eq_none_iff.mp hscript
  | some sc =>
    obtain ⟨hi,-⟩ := List.getElem?_eq_some_iff.mp hscript
    simpa using hi

theorem toggleBreakpoint_harmless (lstate : Option ℕ) :
    Harmless s (toggleBreakpoint τ old s lstate) ↔ lstate.isSome = true ∧ NamesScript τ s := by
  unfold toggleBreakpoint NamesScript
  cases readUInt32 τ s.port with
  | mk scriptIndex port =>
    dsimp only
    cases readUInt32 τ port with
    | mk line port =>
      dsimp only
      have htoggle := toggleBreakpoint_isSome s.backend (lstate.getD old.lstate)
        (scriptIndex.getD old.scriptIndex) (UInt32.ofNat (line.getD old.line))
      cases ht : s.backend.toggleBreakpoint (lstate.getD old.lstate) (scriptIndex.getD old.scriptIndex)
        (UInt32.ofNat (line.getD old.line)) with
      | none =>
        refine ⟨fun h => h.elim,fun ⟨_,⟨i,hi,hlt⟩,_⟩ => ?_⟩
        rw [ht, hi] at htoggle
        exact absurd (htoggle.mpr hlt) Bool.false_ne_true
      | some b =>
        rw [ht] at htoggle
        cases lstate <;> cases scriptIndex <;> cases line <;>
          simp_all [Harmless]

theorem answer_harmless (lstate reqId stackLevel : Option ℕ) (unread : Bool) :
    Harmless s (answer old evaluation s lstate reqId stackLevel unread) ↔ unread = false := by
  unfold answer
  refine ⟨And.left,fun h => ⟨h,fun hvoid => ?_⟩⟩
  have hdead : (s.backend.getVm (lstate.getD old.lstate)).isSome = false := by simpa [h] using hvoid
  dsimp only
  rw [hdead, if_neg Bool.false_ne_true]
  exact ⟨rfl,rfl,rfl,rfl,rfl⟩

theorem harmless_port (o : Outcome) (port : Port) :
    Harmless {s with port := port} o ↔ Harmless s o := by
  cases o <;> rfl

theorem evaluate_harmless (lstate : Option ℕ) :
    Harmless s (evaluate τ old evaluation s lstate) ↔ lstate.isSome = true ∧ EvaluateRead τ s := by
  unfold evaluate EvaluateRead
  dsimp only
  generalize readUInt32 τ s.port = r
  obtain ⟨reqId,port⟩ := r
  dsimp only
  generalize readString τ port = r
  obtain ⟨expression,port⟩ := r
  dsimp only
  generalize readUInt32 τ port = r
  obtain ⟨stackLevel,port⟩ := r
  dsimp only
  rw [← harmless_port _ port, answer_harmless]
  cases lstate <;> cases reqId <;> cases expression <;> cases stackLevel <;> simp

theorem expandTable_harmless (lstate : Option ℕ) :
    Harmless s (expandTable τ old evaluation s lstate) ↔ lstate.isSome = true ∧ ExpandTableRead τ s := by
  unfold expandTable ExpandTableRead
  dsimp only
  generalize readUInt32 τ s.port = r
  obtain ⟨reqId,port⟩ := r
  dsimp only
  generalize readUInt32 τ port = r
  obtain ⟨scope,port⟩ := r
  dsimp only
  generalize readUInt32 τ port = r
  obtain ⟨stackLevel,port⟩ := r
  dsimp only
  generalize readUInt32 τ port = r
  obtain ⟨reference,port⟩ := r
  dsimp only
  rw [← harmless_port _ port, answer_harmless]
  cases lstate <;> cases reqId <;> cases scope <;> cases stackLevel <;> cases reference <;> simp

/-- Deleting leaves everything as it is only where there is nothing to delete. -/
theorem sameState_deleteAll (b : DebugBackend) : SameState b b.deleteAllBreakpoints ↔ NoBreakpoint b := by
  have hscripts :
      b.deleteAllBreakpoints.scripts = b.scripts.map (fun sc => {sc with breakpoints := []}) := rfl
  have hmachines : b.deleteAllBreakpoints.stateToVm =
    b.stateToVm.map (fun e => (e.1,e.2.setActive false)) := rfl
  have hmap {α : Type} (f : α → α) (l : List α) : l.map f = l ↔ ∀ x ∈ l, f x = x := by
    have h := List.map_inj_left (f := f) (g := id) (l := l)
    rwa [List.map_id] at h
  constructor
  · intro h
    refine ⟨fun sc hsc => ?_,fun e he => ?_⟩
    · have := (hmap _ _).mp (hscripts.symm.trans h.scripts) sc hsc
      rw [← this]
    · have := (hmap _ _).mp (hmachines.symm.trans h.stateToVm) e he
      rw [← this]
      exact ⟨rfl,rfl⟩
  · intro h
    refine ⟨hscripts.trans ((hmap _ _).mpr fun sc hsc => ?_),rfl,rfl,
      hmachines.trans ((hmap _ _).mpr fun e he => ?_),rfl⟩
    · have := h.scripts sc hsc
      cases sc
      cases this
      rfl
    · obtain ⟨hactive,hin⟩ := h.machines e he
      obtain ⟨L,vm⟩ := e
      cases vm
      cases hactive
      cases hin
      rfl

theorem sameState_refl (b : DebugBackend) : SameState b b := ⟨rfl,rfl,rfl,rfl,rfl⟩

theorem deleteAll_harmless (lstate : Option ℕ) :
    Harmless s (.served {s with backend := s.backend.deleteAllBreakpoints} false lstate.isNone) ↔
      lstate.isSome = true ∨ NoBreakpoint s.backend := by
  rw [Harmless, sameState_deleteAll]
  cases lstate <;> simp

theorem dispatch_harmless (commandId : ℕ) (lstate : Option ℕ) :
    Harmless s (dispatch τ old evaluation s commandId lstate) ↔ AimedOnState τ s commandId lstate := by
  by_cases hm : usesMachine commandId = true
  · rw [AimedOnState, if_pos hm]
    have hid : commandId = CommandId.continue ∨ commandId = CommandId.stepOver ∨
        commandId = CommandId.stepInto ∨ commandId = CommandId.stepOut ∨ commandId = CommandId.break := by
      simpa [usesMachine] using hm
    rcases hid with rfl | rfl | rfl | rfl | rfl <;> exact onMachine_harmless lstate _
  · rw [AimedOnState, if_neg hm]
    have hid : commandId ≠ CommandId.continue ∧ commandId ≠ CommandId.stepOver ∧
        commandId ≠ CommandId.stepInto ∧ commandId ≠ CommandId.stepOut ∧ commandId ≠ CommandId.break := by
      simpa [usesMachine] using hm
    obtain ⟨h₁,h₂,h₃,h₄,h₅⟩ := hid
    rw [dispatch, if_neg h₁, if_neg h₂, if_neg h₃, if_neg h₄]
    by_cases h : commandId = CommandId.deleteAllBreakpoints
    · rw [if_pos h, if_pos h]
      exact deleteAll_harmless lstate
    rw [if_neg h, if_neg h]
    by_cases h : commandId = CommandId.toggleBreakpoint
    · rw [if_pos h, if_pos h]
      exact toggleBreakpoint_harmless lstate
    rw [if_neg h, if_neg h, if_neg h₅]
    by_cases h : commandId = CommandId.evaluate
    · rw [if_pos h, if_pos h]
      exact evaluate_harmless lstate
    rw [if_neg h, if_neg h]
    by_cases h : commandId = CommandId.expandTable
    · rw [if_pos h, if_pos h]
      exact expandTable_harmless lstate
    rw [if_neg h, if_neg h]
    refine iff_of_true ?_ trivial
    split <;> exact ⟨rfl,fun _ => sameState_refl _⟩

theorem detach_harmless : Harmless s (detach τ s) ↔ (readBool τ s.port).1.isSome = true := by
  unfold detach
  generalize readBool τ s.port = r
  obtain ⟨continueRunning,port⟩ := r
  cases continueRunning <;> simp [Harmless]

theorem ignoreException_harmless :
    Harmless s (ignoreException τ s) ↔ (readString τ s.port).1.isSome = true := by
  unfold ignoreException
  generalize readString τ s.port = r
  obtain ⟨message,port⟩ := r
  cases message <;> simp [Harmless]

theorem harmless_iff (s : State) :
    Harmless s (commandThreadProc size τ old evaluation s) ↔ Aimed size τ s := by
  unfold commandThreadProc Aimed
  generalize readUInt32 τ s.port = r
  obtain ⟨commandId,port⟩ := r
  cases commandId with
  | none => exact iff_of_true ⟨rfl,fun h => by cases h⟩ trivial
  | some commandId =>
    dsimp only
    rw [← harmless_port _ port]
    by_cases h : commandId = CommandId.detach
    · rw [if_pos h, if_pos h]
      exact detach_harmless
    rw [if_neg h, if_neg h]
    by_cases h : commandId = CommandId.ignoreException
    · rw [if_pos h, if_pos h]
      exact ignoreException_harmless
    rw [if_neg h, if_neg h]
    generalize readUInt τ port size = r
    obtain ⟨lstate,port'⟩ := r
    dsimp only
    rw [harmless_port, ← harmless_port _ port']
    exact dispatch_harmless commandId lstate

end Rounds

section Messages

variable {size : PointerSize} {τ : Timing} {s : State} {port : Port} {rest : List Bytes}

/-- A number that is a whole message is read as it was written. -/
theorem readNumber_message {bytes n : ℕ} (hb : 0 < bytes) (hn : n < 256^bytes)
    (hp : port.pipe = MessagePipe.leBytes bytes n :: rest) :
    ∃ port', readNumber τ port bytes = (some n,port') ∧ port'.pipe = rest := by
  have hl := MessagePipe.leBytes_length bytes n
  have hreceive : MessagePipe.receive bytes port = .ok (⟨MessagePipe.leBytes bytes n,false,port.reads⟩,
      ⟨rest,port.taken ++ [MessagePipe.leBytes bytes n],port.reads+1⟩) := by
    have htake : (MessagePipe.leBytes bytes n).take bytes = MessagePipe.leBytes bytes n :=
      List.take_of_length_le hl.le
    simp [MessagePipe.receive, hp, htake, hl]
  refine ⟨⟨rest,port.taken ++ [MessagePipe.leBytes bytes n],port.reads+1⟩,?_,rfl⟩
  rw [readNumber, read, if_neg (by omega), hreceive]
  simp [hl, Channel.filled_full _ _ _ hl, MessagePipe.ofLE_leBytes bytes n hn]

theorem readNumber_closed {bytes : ℕ} (hb : 0 < bytes) (hp : port.pipe = []) :
    readNumber τ port bytes = (none,port) := by
  rw [readNumber, read, if_neg (by omega), MessagePipe.receive, hp]
  rfl

theorem aimed_onState {commandId : ℕ} (hid : commandId < 2^32) (hd : commandId ≠ CommandId.detach)
    (hi : commandId ≠ CommandId.ignoreException)
    (hp : s.port.pipe = Channel.writeUInt32 commandId ++ rest) :
    ∃ port, port.pipe = rest ∧ (Aimed size τ s ↔
      AimedOnState τ {s with port := (readUInt τ port size).2} commandId (readUInt τ port size).1) := by
  obtain ⟨port,hread,hrest⟩ :
      ∃ port', readNumber τ s.port 4 = (some commandId,port') ∧ port'.pipe = rest :=
    readNumber_message (by omega) (by omega) hp
  refine ⟨port,hrest,?_⟩
  rw [Aimed, readUInt32, hread]
  dsimp only
  rw [if_neg hd, if_neg hi]

theorem usesMachine_number {commandId : ℕ} (h : usesMachine commandId = true) :
    commandId < 2^32 ∧ commandId ≠ CommandId.detach ∧ commandId ≠ CommandId.ignoreException := by
  have hid : commandId = CommandId.continue ∨ commandId = CommandId.stepOver ∨
      commandId = CommandId.stepInto ∨ commandId = CommandId.stepOut ∨ commandId = CommandId.break := by
    simpa [usesMachine] using h
  rcases hid with rfl | rfl | rfl | rfl | rfl <;> decide

/-- A Continue, step or Break of the stream has to name a machine. -/
theorem aimed_machine {commandId L : ℕ} (hm : usesMachine commandId = true) (hL : L < 256^size.bytes)
    (hp : s.port.pipe = Channel.writeUInt32 commandId ++ (Channel.writeUInt size L ++ rest)) :
    Aimed size τ s ↔ (s.backend.getVm L).isSome = true := by
  obtain ⟨hid,hd,hi⟩ := usesMachine_number hm
  obtain ⟨port,hport,haimed⟩ : ∃ port, port.pipe = Channel.writeUInt size L ++ rest ∧ (Aimed size τ s ↔
      AimedOnState τ {s with port := (readUInt τ port size).2} commandId (readUInt τ port size).1) :=
    aimed_onState hid hd hi hp
  have hmessage : port.pipe = MessagePipe.leBytes size.bytes L :: rest := by
    rw [hport, Channel.writeUInt, Channel.write, if_neg]
    · rfl
    · cases size <;> exact List.cons_ne_nil _ _
  obtain ⟨port',hread,-⟩ := readNumber_message (τ := τ) (by cases size <;> decide) hL hmessage
  rw [haimed, readUInt, hread, AimedOnState, if_pos hm]
  constructor
  · rintro ⟨L',hL',hlives⟩
    exact Option.some.inj hL' ▸ hlives
  · exact fun h => ⟨L,rfl,h⟩

end Messages

inductive Label where
  | round (τ : Timing) (old : Locals) (evaluation : DebugBackend → DebugBackend)
  | threads (b : DebugBackend)

section Runs

variable (size : PointerSize)

def step (s : State) : Label → Option State
  | .round τ old evaluation =>
    if s.inLoop then
      match commandThreadProc size τ old evaluation s with
      | .crash _ => none
      | .served s' _ _ => some s'
    else none
  | .threads b => some {s with backend := b}

def Step (s : State) (l : Label) (s' : State) : Prop := step size s l = some s'

def HarmlessRound (s : State) : Label → Prop
  | .round τ old evaluation => s.inLoop = true → Harmless s (commandThreadProc size τ old evaluation s)
  | .threads _ => True

def AimedRound (s : State) : Label → Prop
  | .round τ _ _ => s.inLoop = true → Aimed size τ s
  | .threads _ => True

/-- The commands of a stream are harmless, exactly if each is aimed at what lives. -/
theorem harmless_throughout_iff (s : State) (labels : List Label) :
    Throughout (Step size) (HarmlessRound size) s labels ↔
      Throughout (Step size) (AimedRound size) s labels := by
  refine throughout_congr (fun s l => ?_) s labels
  cases l with
  | round τ old evaluation => exact imp_congr_right fun _ => harmless_iff s
  | threads b => exact Iff.rfl

end Runs

/-- A Continue for a machine that is not there, with everything at its start. -/
def deadContinue : State where
  backend := DebugBackend.initial
  port := Port.fresh (Channel.writeUInt32 CommandId.continue ++ Channel.writeUInt .x86 7)
  continueRunning := false
  inLoop := true
  loadEvent := false
  detachEvent := false
  ignoreExceptions := []
  results := []

theorem deadContinue_harms : ¬ Throughout (Step .x86) (HarmlessRound .x86) deadContinue
    [.round ⟨fun _ => false,fun _ _ => 0⟩ ⟨0,0,0,0,0⟩ id] := by
  rintro ⟨h,-⟩
  have hpipe : deadContinue.port.pipe =
    Channel.writeUInt32 CommandId.continue ++ (Channel.writeUInt .x86 7 ++ []) := rfl
  have haimed := (aimed_machine (by decide) (by decide) hpipe).mp ((harmless_iff deadContinue).mp (h rfl))
  cases haimed

end Vecoda.CommandStream
