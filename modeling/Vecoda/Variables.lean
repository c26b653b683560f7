import Mathlib.Logic.Function.Basic
import Vecoda.HandleBreak

/-!
# The adapter's variables

variables.lua over the state that routes answers: the threads with a stored
stack, the variable table, the callbacks of breakpoint evaluations and the
commands not answered yet. A handler gives the state it leaves and whether it
raised; a raise keeps what was done before. The bodies of responses are left
out, and encoding them is taken not to fail.
-/

set_option autoImplicit false

namespace Vecoda.Variables
open MessagePipe LuaText XmlSimple EventStream HandleBreak

structure Child where
  name : Option Bytes
  value : Option Bytes
  type : Option Bytes
  variablesReference : ℤ
  deriving DecidableEq, Repr

/-- A Lua table, `object` telling it from another with the same fields. -/
structure Variable where
  object : ℕ
  scope : Option ℕ
  vm : ℕ
  stackLevel : ℕ
  reference : ℤ
  value : Option (List Child)
  deriving DecidableEq, Repr

inductive Asked where
  | evaluate
  | expand (scope : ℕ) (reference : ℕ)
  deriving DecidableEq, Repr

/-- An `Evaluate` or `ExpandTable` command without its answer yet, its numbers
as they arrive. It was sent for a request, or for a breakpoint. -/
structure Command where
  owner : Option ℕ
  asked : Asked
  seq : ℕ
  vm : ℕ
  stackLevel : ℕ
  deriving DecidableEq, Repr

structure Response where
  requestSeq : ℕ
  success : Bool
  deriving DecidableEq, Repr

structure State where
  debugdata : Bool
  stop : Bool
  stackTrace : ℕ → Bool
  «variables» : ℤ → Option Variable
  variableId : ℕ
  objects : ℕ
  evaluateId : ℕ
  pendingRequests : ℕ → Option (Bool → Bool → Root → Proc)
  commands : List Command
  received : List ℕ
  responses : List Response

/-- What the handlers read from elsewhere: the loaded files and the encoding. -/
structure Host where
  files : ℤ → Option File
  toUtf8 : Option Bytes → Lua (Option Bytes)

def nowhere : Host := ⟨fun _ => none,.ok⟩

def wire (value : ℕ) : ℕ := value % 2^32

def State.respond (s : State) (requestSeq : ℕ) (success : Bool) : State :=
  {s with responses := s.responses ++ [⟨requestSeq,success⟩]}

def State.send (s : State) (c : Command) : State := {s with commands := s.commands ++ [c]}

def createVariable (s : State) (vm stackLevel : ℕ) (scope : Option ℕ) (reference : Option ℤ) :
    ℤ × State :=
  let id := s.variableId+1
  let key := reference.getD (id <<< 16 : ℕ)
  let var : Variable := ⟨s.objects,scope,vm,stackLevel,key,none⟩
  (key,{s with variableId := if reference.isSome then s.variableId else id,
               objects := s.objects+1,
               «variables» := Function.update s.«variables» key (some var)})

section Values

variable (host : Host)

def numberOf (n : Node) : Option ℤ := n.value.bind tonumber

def referenceOf (n : Node) : Option ℤ :=
  match n.attr (text "reference") with
  | [value] => tonumber value
  | _ => none

/-- The text shown for a function; a number that does not parse raises, as does
a script that is not loaded. -/
def functionText (n : Node) : Lua Bytes := do
  let first ← n.child 1
  let second ← n.child 2
  match numberOf first, numberOf second with
  | some fileid, some line =>
    if fileid > 0 then
      match host.files fileid with
      | none => .error .raised
      | some objFile =>
        let path := objFile.path.getD (text "<Unknow>")
        return text "function " ++ path ++ text ":" ++ text (toString (line+1))
    else return text "function"
  | _, _ => .error .raised

def parseElement (el : Node) : Lua (Child × Option (Option ℤ)) := do
  let key ← (← el.child 1).child 1
  let strkey := (← key.child 1).value
  let _ ← key.child 2
  let valueel ← (← el.child 2).child 1
  if valueel.name = some (text "table") then
    if valueel.attr (text "empty") ≠ [] then
      return (⟨strkey,some (text "\x7b\x7d"),some (text "table"),0⟩,none)
    else return (⟨strkey,some (text "table"),some (text "table"),0⟩,some (referenceOf valueel))
  else if valueel.name = some (text "function") then
    return (⟨strkey,some (← functionText host valueel),some (text "function"),0⟩,none)
  else
    let value := (← valueel.child 1).value
    let valuetype := (← valueel.child 2).value
    return (⟨strkey,value,valuetype,0⟩,none)

def nestedReference (vm stackLevel : ℕ) (s : State) : Option (Option ℤ) → ℤ × State
  | none => (0,s)
  | some reference => createVariable s vm stackLevel none reference

def parseElements (vm stackLevel : ℕ) : List Node → State → Option (List Child) × State
  | [], s => (some [],s)
  | el::els, s =>
    match parseElement host el with
    | .error _ => (none,s)
    | .ok (child,nested) =>
      let (reference,s) := nestedReference vm stackLevel s nested
      match host.toUtf8 child.name, host.toUtf8 child.value with
      | .ok name, .ok value =>
        let (values,s) := parseElements vm stackLevel els s
        (values.map (fun values => {child with name := name, value := value,
                                               variablesReference := reference} :: values),s)
      | _, _ => (none,s)

def parseVariable (root : Node) (vm stackLevel : ℕ) (s : State) : Option (List Child) × State :=
  if root.name ≠ some (text "table") then (some [],s)
  else parseElements host vm stackLevel root.children.tail s

inductive Evaluated where
  | emptyTable
  | table (reference : Option ℤ)
  | value (result type : Option Bytes)
  | function (result : Bytes)
  | nothing

/-- The value an evaluation is answered with: of several, the first element of the first. -/
def evaluated (root : Node) : Lua Evaluated := do
  let first ← root.child 1
  let root ← if first.name = some (text "values") then first.child 1 else .ok root
  let first ← root.child 1
  if first.name = some (text "table") then
    return if first.attr (text "empty") ≠ [] then .emptyTable else .table (referenceOf first)
  else if first.name = some (text "value") then
    let v := (← first.child 1).value
    let ntype := (← first.child 2).value
    return .value (← host.toUtf8 v) ntype
  else if first.name = some (text "function") then return .function (← functionText host first)
  else return .nothing

end Values

section Handlers

variable (host : Host)

/-- The handler of the `evaluateRet` event. -/
def evaluateRet (seq vm stackLevel : ℕ) (success : Bool) (root : Root) (s : State) : State × Bool :=
  if !success then (s.respond seq false,false)
  else match root with
    | .text _ => (s,true)
    | .node root =>
      if root.numChildren = 0 then (s.respond seq false,false)
      else match evaluated host root with
        | .error _ => (s,true)
        | .ok (.table reference) => ((createVariable s vm stackLevel none reference).2.respond seq true,false)
        | .ok .nothing => (s.respond seq false,false)
        | .ok _ => (s.respond seq true,false)

/-- `table.sort` by the names compares a name that is nil. -/
def sorts (values : List Child) : Bool := values.length < 2 || values.all (·.name.isSome)

/-- The handler of the `expandRet` event. The values are stored in the variable
it began with, which a nested table may have replaced in the table. -/
def expandRet (seq : ℕ) (reference : ℤ) (vm stackLevel : ℕ) (success : Bool) (root : Root)
    (s : State) : State × Bool :=
  match s.«variables» reference with
  | none => (s,false)
  | some «variable» =>
    if !success then (s.respond seq false,false)
    else match root with
      | .text _ => (s,true)
      | .node root =>
        match root.child 1 with
        | .error _ => (s,true)
        | .ok root =>
          match parseVariable host root vm stackLevel s with
          | (none,s) => (s,true)
          | (some values,t) =>
            if «variable».scope.isNone && !sorts values then (t,true)
            else
              let current := (t.«variables» reference).map Variable.object
              let t := if current = some «variable».object then
                  {t with «variables» := Function.update t.«variables» reference
                                         (some {«variable» with value := some values})}
                else t
              (t.respond seq true,false)

end Handlers

/-- The arguments of a request, each as its use goes: of another type than
expected, or absent, it raises. -/
structure Arguments where
  variablesReference : Option ℤ
  frameId : Option (Lua ℕ)
  expression : Lua Bytes
  threadId : Lua ℕ
  terminateDebuggee : Bool

def «variables» (seq : ℕ) (arg : Arguments) (s : State) : State × Bool :=
  match arg.variablesReference.bind s.«variables» with
  | none => (s,false)
  | some «variable» =>
    if «variable».value.isSome then (s.respond seq true,false)
    else if !s.stackTrace «variable».vm then (s,false)
    else if !s.debugdata then (s,true)
    else (s.send ⟨some seq,.expand («variable».scope.getD 0) (wire «variable».reference.toNat),wire seq,
      «variable».vm,wire «variable».stackLevel⟩,false)

def evaluate (seq : ℕ) (arg : Arguments) (s : State) : State × Bool :=
  match arg.frameId.getD (.ok 0) with
  | .error _ => (s,true)
  | .ok frameId =>
    let threadId := threadIdOf frameId
    if !s.stackTrace threadId then (s,false)
    else if !s.debugdata then (s,true)
    else match arg.expression with
      | .error _ => (s,true)
      | .ok _ => (s.send ⟨some seq,.evaluate,wire seq,threadId,stackLevelOf frameId⟩,false)

def scopes (arg : Arguments) (s : State) : State × Bool :=
  match arg.frameId with
  | some (.ok frameId) =>
    let threadId := threadIdOf frameId
    if !s.stackTrace threadId then (s,false)
    else
      let s := (createVariable s threadId (stackLevelOf frameId) (some 1) none).2
      ((createVariable s threadId (stackLevelOf frameId) (some 2) none).2,false)
  | _ => (s,true)

end Vecoda.Variables
