import Vecoda.MessagePipe
import Vecoda.Ownership

/-!
# The stops of the backend

The threads of the debuggee and the command thread, with the two critical
sections and the events they wait for. BreakFromScript, ErrorHandler and
PostLoadScript each send a break event, wait in WaitForContinue and clear the
cache, in their own order with m_breakLock. What else happens under
m_criticalSection does not wait, and is one step.
-/

set_option autoImplicit false

namespace Vecoda.BreakLock
open MessagePipe (Bytes)
open Ownership

inductive Thread where
  | command
  | lua (id : ℕ)
  deriving DecidableEq, Repr

inductive Stop where
  | breakFromScript
  | errorHandler
  | postLoadScript (registered : Bool)
  deriving DecidableEq, Repr

/-- Where a thread is: at `entering` it waits for m_breakLock, at `waiting` it is
in WaitForContinue, at `loading` it waits for m_loadEvent. -/
inductive Location where
  | running
  | trying (L : ℕ)
  | entering (stop : Stop) (L : ℕ)
  | sending (stop : Stop) (L : ℕ)
  | waiting (stop : Stop) (L : ℕ)
  | clearing (stop : Stop) (L : ℕ)
  | loading
  | ended
  deriving DecidableEq, Repr

def Location.holdsBreakLock : Location → Bool
  | .sending .errorHandler _ => true
  | .sending (.postLoadScript _) _ => true
  | .waiting .errorHandler _ => true
  | .clearing .errorHandler _ => true
  | .clearing .breakFromScript _ => true
  | _ => false

def Location.holdsCriticalSection : Location → Bool
  | .entering (.postLoadScript _) _ => true
  | .sending (.postLoadScript _) _ => true
  | _ => false

/-- `protectedCalls` are the protected calls a thread is in, the innermost first,
and whether their error function is `StaticErrorHandler`. -/
structure State where
  location : Thread → Location
  protectedCalls : Thread → List Bool
  evaluation : Option ℕ
  criticalSection : Option Thread
  breakLock : Option Thread
  stateToVm : ℕ → Bool
  breakEvent : ℕ → Bool
  loadEvent : Bool
  detachEvent : Bool
  ignoreExceptions : List Bytes

namespace State

def moveTo (s : State) (t : Thread) (l : Location) : State :=
  {s with location := Function.update s.location t l}

def runsLua (s : State) (t : Thread) : Bool :=
  s.location t = .running && (t ≠ .command || s.evaluation.isSome)

def getAreInterceptsEnabled (s : State) (t : Thread) : Bool :=
  t ≠ .command || s.evaluation.isNone

def readsCommands (s : State) : Bool := s.location .command = .running && s.evaluation.isNone

def attachState (s : State) (t : Thread) (L : ℕ) : Option State :=
  if s.detachEvent then some s
  else if !canEnter s.criticalSection t then none
  else if s.stateToVm L then some s
  else some {s with stateToVm := Function.update s.stateToVm L true,
                    breakEvent := Function.update s.breakEvent L false}

end State

/-- A call of the Lua API: whether the function is `StaticErrorHandler`, whether
the error function is, and whether the stack holds the function and its arguments. -/
structure CallSite where
  isHandler : Bool
  errorfunc : Bool
  complete : Bool
  deriving DecidableEq, Repr

def call (c : CallSite) : Bool :=
  if c.isHandler || c.errorfunc then c.errorfunc else c.complete

inductive Act where
  | luaCall (L : ℕ) (c : CallSite)
  | luaPcall (L : ℕ) (c : CallSite)
  | luaPcallk530 (L : ℕ) (c : CallSite)
  | returns
  | raises (L : ℕ) (message : Bytes)
  | hook (L : ℕ) (stop : Bool)
  | load (L : ℕ) (registered : Bool)
  | register
  | detachState (L : ℕ)
  | tryEnter
  | enter
  | send
  | wake
  | clear
  | loaded

section Acts

variable (t : Thread) (s : State)

def push (handler : Bool) : State :=
  {s with protectedCalls := Function.update s.protectedCalls t (handler :: s.protectedCalls t)}

def luaCall (L : ℕ) (c : CallSite) : Option State :=
  if !s.runsLua t then none
  else (s.attachState t L).map (fun s => push t s (call {c with errorfunc := false}))

def luaPcall (L : ℕ) (c : CallSite) : Option State :=
  if !s.runsLua t then none
  else (s.attachState t L).map (fun s =>
    push t s (if s.getAreInterceptsEnabled t then call c else c.errorfunc))

/-- lua_pcallk since Lua 5.3, where `Call` is switched off. -/
def luaPcallk530 (L : ℕ) (c : CallSite) : Option State :=
  if !s.runsLua t then none
  else (s.attachState t L).map (fun s => push t s c.errorfunc)

def returns : Option State :=
  match s.protectedCalls t with
  | [] => none
  | _::calls =>
    if !s.runsLua t then none
    else some {s with protectedCalls := Function.update s.protectedCalls t calls}

/-- An error goes to the innermost protected call. `ErrorHandler` begins with the
messages to ignore, and ends with the user's error function in a call of its own. -/
def raises (L : ℕ) (message : Bytes) : Option State :=
  if !s.runsLua t then none
  else match s.protectedCalls t with
    | [] => none
    | false::calls => some {s with protectedCalls := Function.update s.protectedCalls t calls}
    | true::calls =>
      let s := {s with protectedCalls := Function.update s.protectedCalls t (false::calls)}
      some (if message ∈ s.ignoreExceptions then s else s.moveTo t (.trying L))

/-- `HookCallback`, up to its decision to stop. A coroutine has a hook of its own,
which an evaluation does not turn off. -/
def hook (L : ℕ) (stop : Bool) : Option State :=
  if !s.runsLua t || !canEnter s.criticalSection t then none
  else (s.attachState t L).bind (fun s =>
    if !s.stateToVm L then none -- the null pointer is used
    else some (if stop then s.moveTo t (.sending .breakFromScript L) else s))

def load (L : ℕ) (registered : Bool) : Option State :=
  if !s.runsLua t then none
  else if s.detachEvent then some s
  else if !canEnter s.criticalSection t then none
  else some ({s with criticalSection := some t}.moveTo t (.entering (.postLoadScript registered) L))

def register : Option State :=
  if !s.runsLua t || !canEnter s.criticalSection t then none else some (s.moveTo t .loading)

def detachState (L : ℕ) : Option State :=
  if !s.runsLua t || !canEnter s.criticalSection t then none
  else some {s with stateToVm := Function.update s.stateToVm L false,
                    breakEvent := Function.update s.breakEvent L false}

def tryEnter : Option State :=
  match s.location t with
  | .trying L =>
    if canEnter s.breakLock t then
      some ({s with breakLock := some t}.moveTo t (.sending .errorHandler L))
    else some (s.moveTo t .running)
  | _ => none

def enter : Option State :=
  match s.location t with
  | .entering stop L =>
    if !canEnter s.breakLock t then none
    else
      let s := {s with breakLock := some t}
      match stop with
      | .breakFromScript => some (s.moveTo t (.clearing .breakFromScript L))
      | _ => some (s.moveTo t (.sending stop L))
  | _ => none

def send : Option State :=
  match s.location t with
  | .sending stop L =>
    if !canEnter s.criticalSection t then none
    else match stop with
      | .breakFromScript => some (s.moveTo t (.waiting .breakFromScript L))
      | .errorHandler =>
        some (s.moveTo t (if s.stateToVm L then .waiting .errorHandler L else .clearing .errorHandler L))
      | .postLoadScript registered =>
        if !s.stateToVm L then none -- the end of the map is used
        else some ({s with criticalSection := none, breakLock := none}.moveTo t
          (.waiting (.postLoadScript registered) L))
  | _ => none

/-- The end of WaitForContinue; the event is reset by the thread it wakes. -/
def wake : Option State :=
  match s.location t with
  | .waiting stop L =>
    if !s.breakEvent L && !s.detachEvent then none
    else
      let s := {s with breakEvent := Function.update s.breakEvent L false}
      match stop with
      | .breakFromScript => some (s.moveTo t (.entering .breakFromScript L))
      | _ => some (s.moveTo t (.clearing stop L))
  | _ => none

def clear : Option State :=
  match s.location t with
  | .clearing stop _ =>
    match stop with
    | .postLoadScript registered => some (s.moveTo t (if registered then .loading else .running))
    | _ => some ({s with breakLock := none}.moveTo t .running)
  | _ => none

def loaded : Option State :=
  match s.location t with
  | .loading =>
    if !s.loadEvent && !s.detachEvent then none
    else some ({s with loadEvent := false}.moveTo t .running)
  | _ => none

def act : Act → Option State
  | .luaCall L c => luaCall t s L c
  | .luaPcall L c => luaPcall t s L c
  | .luaPcallk530 L c => luaPcallk530 t s L c
  | .returns => returns t s
  | .raises L message => raises t s L message
  | .hook L stop => hook t s L stop
  | .load L registered => load t s L registered
  | .register => register t s
  | .detachState L => detachState t s L
  | .tryEnter => tryEnter t s
  | .enter => enter t s
  | .send => send t s
  | .wake => wake t s
  | .clear => clear t s
  | .loaded => loaded t s

end Acts

inductive Command where
  | resume (L : ℕ)
  | evaluate (L : ℕ)
  | loadDone
  | ignoreException (message : Bytes)
  | detach (continueRunning : Bool)
  | reattach

section Commands

variable (s : State)

def resume (L : ℕ) : Option State :=
  if !s.stateToVm L || !canEnter s.criticalSection .command then none
  else some {s with breakEvent := Function.update s.breakEvent L true}

def evaluate (L : ℕ) : Option State :=
  if !s.stateToVm L then some s
  else if !canEnter s.criticalSection .command then none
  else some {s with evaluation := some L,
                    protectedCalls := Function.update s.protectedCalls .command [false]}

def detach (continueRunning : Bool) : Option State :=
  if !canEnter s.criticalSection .command then none
  else if continueRunning then some {s with detachEvent := true}
  else some ({s with detachEvent := true, stateToVm := fun _ => false}.moveTo .command .ended)

def reattach : Option State :=
  if s.detachEvent then
    some {s with detachEvent := false, loadEvent := false, breakEvent := fun _ => false}
  else none

def commandThreadProc (c : Command) : Option State :=
  if !s.readsCommands then none
  else match c with
    | .resume L => resume s L
    | .evaluate L => evaluate s L
    | .loadDone => some {s with loadEvent := true}
    | .ignoreException message => some {s with ignoreExceptions := message :: s.ignoreExceptions}
    | .detach continueRunning => detach s continueRunning
    | .reattach => reattach s

def evaluated : Option State :=
  if s.location .command = .running && s.evaluation.isSome then
    some {s with evaluation := none, protectedCalls := Function.update s.protectedCalls .command []}
  else none

end Commands

inductive Label where
  | act (t : Thread) (a : Act)
  | command (c : Command)
  | evaluated

def step (s : State) : Label → Option State
  | .act t a => act t s a
  | .command c => commandThreadProc s c
  | .evaluated => evaluated s

def Step (s : State) (l : Label) (s' : State) : Prop := step s l = some s'

def initial : State where
  location _ := .running
  protectedCalls _ := []
  evaluation := none
  criticalSection := none
  breakLock := none
  stateToVm _ := false
  breakEvent _ := false
  loadEvent := false
  detachEvent := false
  ignoreExceptions := []

end Vecoda.BreakLock
