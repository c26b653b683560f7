import Vecoda.Variables

/-!
# The adapter's messages

request.lua and `m.update` of worker.lua as one state machine. A request is
handled under pcall, with an error response where its handler raised; an event
of the backend is handled under pcall too. What the handlers call elsewhere may
raise, which the label of a step decides; so does it for the breakpoints a
break finds. Requests come with fresh numbers.
-/

set_option autoImplicit false

namespace Vecoda.Requests
open MessagePipe LuaText EventStream HandleBreak Variables

inductive Name where
  | initializeRequest
  | setBreakpoints
  | launch
  | attach
  | configurationDone
  | setExceptionBreakpoints
  | stackTrace
  | scopes
  | «variables»
  | evaluate
  | threads
  | disconnect
  | terminate
  | restart
  | «continue»
  | next
  | stepIn
  | stepOut
  | pause
  | exceptionInfo
  | loadedSources
  | source
  | unknown (name : Bytes)
  deriving DecidableEq, Repr

structure Request where
  seq : ℕ
  command : Name
  arguments : Option Arguments

inductive Call where
  | arguments
  | setBreakpoints
  | setExceptionBreakpoints
  | filesInit
  | resume
  | announce
  | stopDebuggee
  | detach
  | write
  | source
  deriving DecidableEq, Repr

structure Outside where
  raises : Call → Bool
  launched : Bool
  addressed : Bool
  attached : Bool

def calm : Outside := ⟨fun _ => false,true,true,true⟩

def onTop (seq : ℕ) (command : Name) (vm : ℕ) : Request :=
  ⟨seq,command,some ⟨none,some (.ok (vm <<< 5)),.ok (text "x"),.ok vm,false⟩⟩

abbrev Handler := Outside → Request → State → State × Bool

def answering (call : Call) : Handler := fun out req s =>
  if out.raises call then (s,true) else (s.respond req.seq true,false)

def answerOnly : Handler := fun _ req s => (s.respond req.seq true,false)

def initializeRequest : Handler := answerOnly
def setBreakpoints : Handler := answering .setBreakpoints
def configurationDone : Handler := answerOnly
def setExceptionBreakpoints : Handler := answering .setExceptionBreakpoints
def stackTrace : Handler := answering .arguments
def threads : Handler := answerOnly
def exceptionInfo : Handler := answerOnly
def loadedSources : Handler := answerOnly
def source : Handler := answering .source

def launch : Handler := fun out req s =>
  if out.raises .arguments || out.raises .filesInit then (s,true)
  else if !out.launched then (s.respond req.seq false,false)
  else
    let s := {s with debugdata := true}
    if out.raises .resume then (s,true) else (s.respond req.seq true,false)

def attach : Handler := fun out req s =>
  if out.raises .arguments then (s,true)
  else if !out.addressed || !out.attached then (s.respond req.seq false,false)
  else if out.raises .filesInit then (s,true)
  else
    let s := {s with debugdata := true}
    if out.raises .resume then (s,true) else (s.respond req.seq true,out.raises .announce)

def scopes : Handler := fun _ req s =>
  match req.arguments with
  | none => (s,true)
  | some arg =>
    match Variables.scopes arg s with
    | (s,true) => (s,true)
    | (s,false) => (s.respond req.seq true,false)

def «variables» : Handler := fun _ req s =>
  match req.arguments with
  | none => (s,true)
  | some arg => Variables.«variables» req.seq arg s

def evaluate : Handler := fun _ req s =>
  match req.arguments with
  | none => (s,true)
  | some arg => Variables.evaluate req.seq arg s

def workerStop (call : Call) (out : Outside) (s : State) : State × Bool :=
  if s.debugdata then
    if out.raises call then (s,true) else ({s with debugdata := false},false)
  else (s,false)

def disconnect : Handler := fun out req s =>
  let s := {s with stop := true}
  match req.arguments with
  | none => (s,true)
  | some arg =>
    match workerStop (if arg.terminateDebuggee then .stopDebuggee else .detach) out s with
    | (s,true) => (s,true)
    | (s,false) => (s.respond req.seq true,false)

def terminate : Handler := fun out req s =>
  match workerStop .stopDebuggee out s with
  | (s,true) => (s,true)
  | (s,false) => (s.respond req.seq true,false)

/-- `files.restart` does not exist, so that nothing after its call is reached. -/
def restart : Handler := fun out _ s => ((workerStop .stopDebuggee out s).1,true)

def resuming : Handler := fun out req s =>
  if !s.debugdata then (s.respond req.seq true,false)
  else match req.arguments with
    | some {threadId := .ok threadId,..} =>
      if out.raises .write then (s,true)
      else ({s with stackTrace := Function.update s.stackTrace threadId false}.respond req.seq true,false)
    | _ => (s,true)

def «continue» : Handler := resuming
def next : Handler := resuming
def stepIn : Handler := resuming
def stepOut : Handler := resuming

def pause : Handler := fun out req s =>
  if s.debugdata && out.raises .write then (s,true) else (s.respond req.seq true,false)

def handlers : Name → Option Handler
  | .initializeRequest => initializeRequest
  | .setBreakpoints => setBreakpoints
  | .launch => launch
  | .attach => attach
  | .configurationDone => configurationDone
  | .setExceptionBreakpoints => setExceptionBreakpoints
  | .stackTrace => stackTrace
  | .scopes => scopes
  | .«variables» => «variables»
  | .evaluate => evaluate
  | .threads => threads
  | .disconnect => disconnect
  | .terminate => terminate
  | .restart => restart
  | .continue => «continue»
  | .next => next
  | .stepIn => stepIn
  | .stepOut => stepOut
  | .pause => pause
  | .exceptionInfo => exceptionInfo
  | .loadedSources => loadedSources
  | .source => source
  | .unknown _ => none

def handle (out : Outside) (req : Request) (s : State) : State :=
  match handlers req.command with
  | none => s
  | some handler =>
    match handler out req s with
    | (s,true) => s.respond req.seq false
    | (s,false) => s

section Events

def effect (s : State) : Effect → State
  | .emitStopped => {s with «variables» := fun _ => none, variableId := 0}
  | _ => s

def enact (thread hits : ℕ) : Proc → State → State × Bool
  | .done, s => (s,false)
  | .raise, s => (s,true)
  | .emit e k, s => enact thread hits k (effect s e)
  | .setStacks _ k, s =>
    enact thread hits k {s with stackTrace := Function.update s.stackTrace thread true}
  | .hit k, s => enact thread hits (k (hits+1)) s
  | .evaluate _ threadId stackLevel callback, s =>
    let id := (s.evaluateId+1) <<< 16
    let s := s.send ⟨none,.evaluate,wire id,threadId,stackLevel⟩
    ({s with evaluateId := s.evaluateId+1,
             pendingRequests := Function.update s.pendingRequests id (some callback)},false)

/-- `bpEvaulateRet`: whether the answer was one for a breakpoint, if it did not raise. -/
def bpEvaulateRet (hits : ℕ) (c : Command) (success : Bool) (root : Root) (s : State) :
    State × Option Bool :=
  match s.pendingRequests c.seq with
  | none => (s,some false)
  | some callback =>
    match if success then toboolean root else .ok false with
    | .error _ => (s,none)
    | .ok hit =>
      match enact c.vm hits (callback hit success root) s with
      | (s,true) => (s,none)
      | (s,false) =>
        ({s with pendingRequests := Function.update s.pendingRequests c.seq none},some true)

/-- An `EvaluateRet`: for a request the event is emitted at once, and always
again at the end of `m.update`. -/
def evaluateAnswer (host : Host) (hits : ℕ) (c : Command) (success suc : Bool) (root : Root)
    (s : State) : State × Bool :=
  let emit := evaluateRet host c.seq c.vm c.stackLevel suc root
  match bpEvaulateRet hits c success root s with
  | (s,none) => (s,true)
  | (s,some true) => emit s
  | (s,some false) =>
    match emit s with
    | (s,true) => (s,true)
    | (s,false) => emit s

def answer (host : Host) (hits : ℕ) (c : Command) (success : Bool) (result : Bytes) (s : State) :
    State × Bool :=
  match parseEvaluateResult (some success) (some result) with
  | .error _ => (s,true)
  | .ok (suc,root) =>
    match c.asked with
    | .evaluate => evaluateAnswer host hits c success suc root s
    | .expand _ reference => expandRet host c.seq reference c.vm c.stackLevel suc root s

end Events

inductive Label where
  | request (req : Request) (out : Outside)
  | stop (nvm hits : ℕ) (event : StopEvent) (a : Adapter)
  | answer (i hits : ℕ) (success : Bool) (result : Bytes) (host : Host)
  | other
  | disconnected (out : Outside)

/-- The loop of `message.update`. The backend's `CreateVM`, `LoadScript` and the
like touch nothing here. -/
def Step (s : State) : Label → State → Prop
  | .request req out, s' => s.stop = false ∧ req.seq ∉ s.received ∧
      s' = handle out req {s with received := s.received ++ [req.seq]}
  | .stop nvm hits event a, s' => s.debugdata = true ∧ s' = (enact nvm hits (a.handle nvm event) s).1
  | .answer i hits success result host, s' => s.debugdata = true ∧ ∃ c, s.commands[i]? = some c ∧
      s' = (answer host hits c success result {s with commands := s.commands.eraseIdx i}).1
  | .other, s' => s.debugdata = true ∧ s' = s
  | .disconnected out, s' => s.debugdata = true ∧ s' = (workerStop .stopDebuggee out s).1

def perform (s : State) : Label → Option State
  | .request req out =>
    if s.stop = false ∧ req.seq ∉ s.received then
      some (handle out req {s with received := s.received ++ [req.seq]})
    else none
  | .stop nvm hits event a =>
    if s.debugdata = true then some (enact nvm hits (a.handle nvm event) s).1 else none
  | .answer i hits success result host =>
    if s.debugdata = true then s.commands[i]?.map (fun c =>
      (answer host hits c success result {s with commands := s.commands.eraseIdx i}).1)
    else none
  | .other => if s.debugdata = true then some s else none
  | .disconnected out =>
    if s.debugdata = true then some (workerStop .stopDebuggee out s).1 else none

theorem step_iff_perform {s s' : State} {l : Label} : Step s l s' ↔ perform s l = some s' := by
  cases l with
  | request req out =>
    rw [perform, Option.ite_none_right_eq_some, Option.some_inj]
    exact ⟨fun ⟨hs,hseq,he⟩ => ⟨⟨hs,hseq⟩,he.symm⟩,fun ⟨⟨hs,hseq⟩,he⟩ => ⟨hs,hseq,he.symm⟩⟩
  | stop nvm hits event a =>
    rw [perform, Option.ite_none_right_eq_some, Option.some_inj]
    exact ⟨fun ⟨hd,he⟩ => ⟨hd,he.symm⟩,fun ⟨hd,he⟩ => ⟨hd,he.symm⟩⟩
  | answer i hits success result host =>
    rw [perform, Option.ite_none_right_eq_some, Option.map_eq_some_iff]
    exact ⟨fun ⟨hd,c,hc,he⟩ => ⟨hd,c,hc,he.symm⟩,fun ⟨hd,c,hc,he⟩ => ⟨hd,c,hc,he.symm⟩⟩
  | other =>
    rw [perform, Option.ite_none_right_eq_some, Option.some_inj]
    exact ⟨fun ⟨hd,he⟩ => ⟨hd,he.symm⟩,fun ⟨hd,he⟩ => ⟨hd,he.symm⟩⟩
  | disconnected out =>
    rw [perform, Option.ite_none_right_eq_some, Option.some_inj]
    exact ⟨fun ⟨hd,he⟩ => ⟨hd,he.symm⟩,fun ⟨hd,he⟩ => ⟨hd,he.symm⟩⟩

def initial : State where
  debugdata := false
  stop := false
  stackTrace _ := false
  «variables» _ := none
  variableId := 0
  objects := 0
  evaluateId := 0
  pendingRequests _ := none
  commands := []
  received := []
  responses := []

end Vecoda.Requests
