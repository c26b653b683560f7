import Vecoda.Breakpoints
import Vecoda.EventStream

/-!
# The decision after a break

`handleBreak` with `breakpoint.exec` and `bpEvaulateRet`. The callbacks are one
tree: at an `evaluate` the handler returns, and what is below it runs when the
answer to that command arrives, in the handling of another event. Between the
two the counters of the module may have been moved on by other breaks, so that
every answer comes with their values.
-/

set_option autoImplicit false

namespace Vecoda.HandleBreak
open MessagePipe LuaText XmlSimple Breakpoints EventStream

structure File where
  path : Option Bytes
  name : Bytes
  breakpoints : Table

structure StackFrame where
  id : ℕ
  fileId : ℕ
  path : Option Bytes
  sourceName : Bytes
  name : Bytes
  line : ℕ
  column : ℕ
  deriving DecidableEq, Repr

inductive Effect where
  | output (category output : Bytes)
  | evaluate (seq : ℕ) (expression : Bytes) (nvm stackLevel : ℕ)
  | setStacks (thread : ℕ) (stackFrames : List StackFrame)
  | stopped (reason : Option Bytes) (threadId : ℕ) (hitBreakpointIds : Option ℕ)
  | emitStopped
  | «continue» (nvm : ℕ)
  deriving DecidableEq, Repr

/-- A handler; `setStacks` stores under the thread of the event being handled. -/
inductive Proc where
  | done
  | raise
  | emit (e : Effect) (k : Proc)
  | setStacks (stackFrames : List StackFrame) (k : Proc)
  | hit (k : ℕ → Proc)
  | evaluate (expression : Bytes) (threadId stackLevel : ℕ) (callback : Bool → Bool → Root → Proc)

def frameId (nvm position : ℕ) : ℕ := (nvm <<< 5) % 2^64 ||| position

def threadIdOf (id : ℕ) : ℕ := id >>> 5

def stackLevelOf (id : ℕ) : ℕ := id &&& 31

section Frames

variable (files : ℕ → Option File)

def stackFrame (nvm position : ℕ) (f : Frame) : StackFrame :=
  let file := files f.scriptIndex.toNat
  {id := frameId nvm position, fileId := f.scriptIndex.toNat, path := file.bind File.path,
   sourceName := (file.map File.name).getD (text "Unknown"),
   name := f.name.bytes ++ text ":" ++ text (toString (f.line.toNat+1)),
   line := f.line.toNat+1, column := 0}

def listed (nvm : ℕ) : ℕ → List Frame → List StackFrame
  | _, [] => []
  | position, f::fs =>
    if f.scriptIndex.toNat ≠ 0xffffffff then
      stackFrame files nvm position f :: listed nvm (position+1) fs
    else listed nvm (position+1) fs

def getBreakpoint (fileid line : ℕ) : Option Breakpoint :=
  (files fileid).bind (fun objFile => objFile.breakpoints.lookup (line : ℤ))

end Frames

def toboolean : Root → Lua Bool
  | .text _ => .error .raised
  | .node root => do
    let value ← root.child 1
    if value.name = some (text "value") then
      let data ← value.child 1
      let type ← value.child 2
      return if type.value = some (text "nil") then false
        else if type.value = some (text "boolean") then data.value = some (text "true")
        else true
    else return true

def tostring : Root → Lua (Option Bytes)
  | .text _ => .error .raised
  | .node root => do
    let value ← root.child 1
    if value.name = some (text "value") then return (← value.child 1).value
    else return value.name

section Log

def matchKey : Bytes → Option (Bytes × Bytes)
  | [] => none
  | b::bs =>
    let key := bs.takeWhile isDigit
    match bs.drop key.length with
    | [] => none
    | c::after => if b = byte '\x7b' ∧ key ≠ [] ∧ c = byte '\x7d' then some (key,after) else none

def findKey : Bytes → Option (Bytes × Bytes × Bytes)
  | [] => none
  | b::bs =>
    match matchKey (b::bs) with
    | some (key,after) => some ([],key,after)
    | none => (findKey bs).map (fun p => (b::p.1,p.2))

theorem matchKey_after {s key after : Bytes} (h : matchKey s = some (key,after)) :
    after.length < s.length := by
  cases s with
  | nil => cases h
  | cons b bs =>
    simp only [matchKey] at h
    split at h
    · cases h
    · rename_i c rest hdrop
      obtain ⟨-,he⟩ := Option.ite_none_right_eq_some.mp h
      cases he
      have hlen := congrArg List.length hdrop
      simp only [List.length_drop, List.length_cons] at hlen ⊢
      omega

theorem findKey_after {s : Bytes} {p : Bytes × Bytes × Bytes} (h : findKey s = some p) :
    p.2.2.length < s.length := by
  induction s generalizing p with
  | nil => cases h
  | cons b bs ih =>
    rw [findKey] at h
    split at h
    · rename_i key after hkey
      cases h
      exact matchKey_after hkey
    · obtain ⟨q,hq,rfl⟩ := Option.map_eq_some_iff.mp h
      have := ih hq
      simp only [List.length_cons]
      omega

/-- `str` is held in two parts, `before` being what has been processed. -/
def processStatLogSequentially (stats : List (Bytes × Bytes)) (threadId stackLevel : ℕ)
    (doneCallback : Bytes → Proc) (before rest : Bytes) : Proc :=
  match _h : findKey rest with
  | none => doneCallback (before ++ rest)
  | some (skipped,key,after) =>
    match stats.lookup (statKey key) with
    | none => processStatLogSequentially stats threadId stackLevel doneCallback
        (before ++ skipped ++ statKey key) after
    | some stat => .evaluate stat threadId stackLevel (fun _ success root =>
        if success then
          match tostring root with
          | .ok (some replacement) => processStatLogSequentially stats threadId stackLevel doneCallback
              (before ++ skipped ++ replacement) after
          | _ => .raise -- an error, or the concatenation of a nil value
        else processStatLogSequentially stats threadId stackLevel doneCallback
          (before ++ skipped ++ statKey stat) after)
termination_by rest.length
decreasing_by all_goals exact findKey_after _h

end Log

section Exec

variable (bp : Breakpoint) (threadId stackLevel : ℕ) (callback : Bool → Proc)

def checkStatLog : Proc :=
  match bp.statLog with
  | none => callback true
  | some log => processStatLogSequentially log.stats threadId stackLevel
      (fun result => .emit (.output (text "stdout") result) (callback false)) [] log.template

def checkHitCondition : Proc :=
  .hit (fun hit =>
    match bp.hitCondition with
    | none => checkStatLog bp threadId stackLevel callback
    | some hitCondition =>
      .evaluate (text (toString hit) ++ text " " ++ hitCondition) threadId stackLevel
        (fun hit _ _ => if !hit then callback false else checkStatLog bp threadId stackLevel callback))

def checkCondition : Proc :=
  match bp.condition with
  | none => checkHitCondition bp threadId stackLevel callback
  | some condition =>
    .evaluate condition threadId stackLevel
      (fun hit _ _ => if !hit then callback false
        else checkHitCondition bp threadId stackLevel callback)

end Exec

def exec (bp : Breakpoint) (id : ℕ) (callback : Bool → Proc) : Proc :=
  checkCondition bp (threadIdOf id) (stackLevelOf id) callback

def breakReasons (reason : UInt32) : Option Bytes :=
  if reason = 1 then some (text "breakpoint")
  else if reason = 2 then some (text "step")
  else if reason = 3 ∨ reason = 4 then some (text "exception")
  else none

def breakOrContinue (nvm : ℕ) (stackFrames : List StackFrame) (reason : UInt32) (bp : Option Breakpoint)
    (bBreak : Bool) : Proc :=
  if bBreak then
    .setStacks stackFrames (.emit (.stopped (breakReasons reason) nvm (bp.map Breakpoint.id))
      (.emit .emitStopped .done))
  else .emit (.continue nvm) .done

def decideBreak (nvm : ℕ) (stack : BreakStack) (stackFrames : List StackFrame) (bp : Option Breakpoint) :
    Proc :=
  if stack.frames = [] then breakOrContinue nvm stackFrames stack.reason bp false
  else match bp with
    | none => breakOrContinue nvm stackFrames stack.reason bp true
    | some b =>
      match stackFrames with
      | [] => .raise
      | top::_ => exec b top.id (breakOrContinue nvm stackFrames stack.reason bp)

def handleBreak (files : ℕ → Option File) (nvm : ℕ) (errorMessage : Option Bytes)
    (bp : Option Breakpoint) (tryStop : Bool) (stack : BreakStack) : Proc :=
  let stackFrames := listed files nvm 0 stack.frames
  if bp.isNone && !tryStop then
    match errorMessage with
    | none => .raise
    | some message => .emit (.output (text "stderr") message) (.emit (.continue nvm) .done)
  else if bp.isNone && stack.reason = 1 then
    match stackFrames with
    | [] => .raise
    | top::_ => decideBreak nvm stack stackFrames (getBreakpoint files top.fileId top.line)
  else decideBreak nvm stack stackFrames bp

structure Adapter where
  files : ℕ → Option File
  exceptionBreakpoints : Fault → Option ℕ

inductive StopEvent where
  | «break» (stack : BreakStack)
  | fault (kind : Fault) (message : Bytes) (stack : BreakStack)

def breakAt (reason line : UInt32) : StopEvent := .break ⟨reason,[⟨0,line,⟨[],nofun⟩⟩],by simp⟩

def StopEvent.stack : StopEvent → BreakStack
  | .break stack => stack
  | fault _ _ stack => stack

def exceptionBreakpoint (id : ℕ) : Breakpoint := ⟨id,0,none,none,none,0⟩

def Adapter.handle (a : Adapter) (nvm : ℕ) : StopEvent → Proc
  | .break stack => handleBreak a.files nvm none none true stack
  | .fault kind message stack =>
    let bp := (a.exceptionBreakpoints kind).map exceptionBreakpoint
    handleBreak a.files nvm (some message) bp bp.isSome stack

/-- The counters of breakpoint.lua: the requests made, and the hits of the breakpoint. -/
structure Counters where
  evaluateId : ℕ
  hit : ℕ
  deriving DecidableEq, Repr

structure Answer where
  success : Bool
  result : Bytes
  counters : Counters
  deriving DecidableEq, Repr

/-- The part of an answer's handling that comes before the callback, of whose
arguments the first is computed for every callback. -/
def Answer.decode (a : Answer) : Lua (Bool × Bool × Root) :=
  (parseEvaluateResult (some a.success) (some a.result)).bind (fun p =>
    (if a.success then toboolean p.2 else .ok false).map (fun hit => (hit,a.success,p.2)))

def reqId (c : Counters) : ℕ := (c.evaluateId+1) <<< 16

/-- The effects of a handler and of the callbacks that the answers bring about,
the i-th answer being the one to the i-th command. A request number is sent as
32 bits, and the callback is kept under the whole number. -/
def run : Proc → ℕ → Counters → (ℕ → Answer) → List Effect
  | .done, _, _, _ => []
  | .raise, _, _, _ => []
  | .emit e k, thread, c, answers => e :: run k thread c answers
  | .setStacks stackFrames k, thread, c, answers => .setStacks thread stackFrames :: run k thread c answers
  | .hit k, thread, c, answers => run (k (c.hit+1)) thread {c with hit := c.hit+1} answers
  | .evaluate expression threadId stackLevel callback, _, c, answers =>
    .evaluate (reqId c) expression threadId stackLevel ::
      if reqId c % 2^32 ≠ reqId c then []
      else match (answers 0).decode with
        | .error _ => []
        | .ok (hit,success,root) =>
          run (callback hit success root) threadId (answers 0).counters (fun i => answers (i+1))

def isOutcome : Effect → Bool
  | .setStacks _ _ => true
  | .stopped _ _ _ => true
  | .continue _ => true
  | _ => false

def outcomes (effects : List Effect) : List Effect := effects.filter isOutcome

/-- One `stopped` event with its stack stored for the virtual machine, or one
`Continue` command. -/
def Decided (nvm : ℕ) (stackFrames : List StackFrame) (effects : List Effect) : Prop :=
  outcomes effects = [.continue nvm] ∨
    ∃ reason bp, outcomes effects = [.setStacks nvm stackFrames,.stopped reason nvm bp]

end Vecoda.HandleBreak
