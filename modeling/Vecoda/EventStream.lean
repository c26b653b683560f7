import Vecoda.Channel

/-!
# The event stream

The backend's event writers and the reads of `m.update` in worker.lua, two
copies of one format. An event here is one call of a writer of the backend;
`Exception` and `LoadError` come with the `Break` that `SendBreakEvent` sends
directly after them. `update` returns what the reads of one call yield before
anything is done with it; reading ends early where the Lua code raises.
-/

set_option autoImplicit false

namespace Vecoda.EventStream
open MessagePipe LuaText XmlSimple Channel

namespace EventId
def createVM : ℕ := 1
def destroyVM : ℕ := 2
def loadScript : ℕ := 3
def «break» : ℕ := 4
def setBreakpoint : ℕ := 5
def exception : ℕ := 6
def loadError : ℕ := 7
def message : ℕ := 9
def nameVM : ℕ := 10
def evaluateRet : ℕ := 11
def expandTableRet : ℕ := 12
end EventId

structure CString where
  bytes : Bytes
  noNul : 0 ∉ bytes

abbrev Handle (p : PointerSize) := Fin (256 ^ p.bytes)

structure Frame where
  scriptIndex : UInt32
  line : UInt32
  name : CString

/-- What `SendBreakEvent` writes after the VM; `stackSize` is an `unsigned int`. -/
structure BreakStack where
  reason : UInt32
  frames : List Frame
  fits : frames.length < 2^32

inductive Fault where
  | exception
  | loadError
  deriving DecidableEq, Repr

def Fault.id : Fault → ℕ
  | .exception => EventId.exception
  | .loadError => EventId.loadError

inductive Event (p : PointerSize) where
  | createVM (vm : Handle p)
  | destroyVM (vm : Handle p)
  | loadScript (vm : Handle p) (fileName source : CString) (state : UInt32)
  | setBreakpoint (vm : Handle p) (scriptIndex line set : UInt32)
  | message (vm : Handle p) (type : UInt32) (message : CString)
  | nameVM (vm : Handle p) (name : CString)
  | break (vm : Handle p) (stack : BreakStack)
  | evaluateRet (vm : Handle p) (reqId stackLevel : UInt32) (success : Bool) (result : CString)
  | expandTableRet (vm : Handle p) (reqId stackLevel : UInt32) (success : Bool) (result : CString)
      (reference : UInt32)
  | fault (kind : Fault) (vm : Handle p) (message : CString) (stack : BreakStack)

section Writers

variable {p : PointerSize}

def header (id : ℕ) (vm : Handle p) : List Bytes := writeUInt32 id ++ writeUInt p vm.val

def writeFrame (f : Frame) : List Bytes :=
  writeUInt32 f.scriptIndex.toNat ++ (writeUInt32 f.line.toNat ++ writeString f.name.bytes)

def writeStack (s : BreakStack) : List Bytes :=
  writeUInt32 s.reason.toNat ++ (writeUInt32 s.frames.length ++ s.frames.flatMap writeFrame)

def Event.writes : Event p → List Bytes
  | createVM vm => header EventId.createVM vm
  | destroyVM vm => header EventId.destroyVM vm
  | loadScript vm fileName source state =>
      header EventId.loadScript vm ++ (writeString fileName.bytes ++ (writeString source.bytes ++
        writeUInt32 state.toNat))
  | setBreakpoint vm scriptIndex line set =>
      header EventId.setBreakpoint vm ++ (writeUInt32 scriptIndex.toNat ++ (writeUInt32 line.toNat ++
        writeUInt32 set.toNat))
  | message vm type content =>
      header EventId.message vm ++ (writeUInt32 type.toNat ++ writeString content.bytes)
  | nameVM vm name => header EventId.nameVM vm ++ writeString name.bytes
  | .break vm stack => header EventId.break vm ++ writeStack stack
  | evaluateRet vm reqId stackLevel success result =>
      header EventId.evaluateRet vm ++ (writeUInt32 reqId.toNat ++ (writeUInt32 stackLevel.toNat ++
        (writeBool success ++ writeString result.bytes)))
  | expandTableRet vm reqId stackLevel success result reference =>
      header EventId.expandTableRet vm ++ (writeUInt32 reqId.toNat ++ (writeUInt32 stackLevel.toNat ++
        (writeBool success ++ (writeString result.bytes ++ writeUInt32 reference.toNat))))
  | fault kind vm text stack =>
      header kind.id vm ++ (writeString text.bytes ++ (header EventId.break vm ++ writeStack stack))

def stream (es : List (Event p)) : List Bytes := es.flatMap Event.writes

end Writers

/-- The second result of `parseEvaluateResult`: a text (or nil), or the parsed root. -/
inductive Root where
  | text (s : Option Bytes)
  | node (n : Node)

def parseEvaluateResult (success : Option Bool) (strret : Option Bytes) : Lua (Bool × Root) :=
  if strret = some [] then .ok (false,.text (some (LuaText.text "can not get result")))
  else
    -- the parser runs under pcall, and fails on a nil text
    match strret.map parseXmlText with
    | some (.ok root) =>
      if success = some true then .ok (true,.node root)
      else (root.child 1).map (fun c => (false,.text c.value))
    | _ => .ok (false,.text (some (LuaText.text "parse xml result failed")))

/-- One pass of the loop of `handleBreak`; nil where a read failed. -/
structure RawFrame where
  fileId : Option ℕ
  line : Option ℕ
  func : Option Bytes
  deriving DecidableEq, Repr

structure RawStack where
  reason : Option ℕ
  frames : List RawFrame
  deriving DecidableEq, Repr

/-- The fields that one call of `update` reads, as its Lua locals hold them. -/
inductive Incoming where
  | createVM (nvm : ℕ)
  | destroyVM (nvm : ℕ)
  | loadScript (nvm : ℕ) (name source : Option Bytes) (codeState : Option ℕ)
  | setBreakpoint (nvm : ℕ) (fileId line set : Option ℕ)
  | message (nvm : ℕ) (type : Option ℕ) (content : Option Bytes)
  | nameVM (nvm : ℕ) (data : Option Bytes)
  | break (nvm : ℕ) (stack : RawStack)
  | evaluateRet (nvm : ℕ) (seq stackLevel : Option ℕ) (success : Option Bool) (result : Option Bytes)
  | expandTableRet (nvm : ℕ) (seq stackLevel : Option ℕ) (success : Option Bool)
      (result : Option Bytes) (reference : Option ℕ)
  | fault (eventId : ℕ) (nvm : ℕ) (errorMsg : Option Bytes) (stack : RawStack)
  | unknown (nvm : ℕ)
  deriving DecidableEq, Repr

section Fields

variable {p : PointerSize}

def RawFrame.of (f : Bytes → Bytes) (frame : Frame) : RawFrame :=
  ⟨some frame.scriptIndex.toNat,some frame.line.toNat,some (f frame.name.bytes)⟩

def RawStack.of (f : Bytes → Bytes) (stack : BreakStack) : RawStack :=
  ⟨some stack.reason.toNat,stack.frames.map (RawFrame.of f)⟩

def Event.fieldsWith (f : Bytes → Bytes) : Event p → Incoming
  | createVM vm => .createVM vm
  | destroyVM vm => .destroyVM vm
  | loadScript vm fileName source state =>
      .loadScript vm (some (f fileName.bytes)) (some (f source.bytes)) (some state.toNat)
  | setBreakpoint vm scriptIndex line set =>
      .setBreakpoint vm (some scriptIndex.toNat) (some line.toNat) (some set.toNat)
  | message vm type content => .message vm (some type.toNat) (some (f content.bytes))
  | nameVM vm name => .nameVM vm (some (f name.bytes))
  | .break vm stack => .break vm (RawStack.of f stack)
  | evaluateRet vm reqId stackLevel success result =>
      .evaluateRet vm (some reqId.toNat) (some stackLevel.toNat) (some success) (some (f result.bytes))
  | expandTableRet vm reqId stackLevel success result reference =>
      .expandTableRet vm (some reqId.toNat) (some stackLevel.toNat) (some success)
        (some (f result.bytes)) (some reference.toNat)
  | fault kind vm text stack => .fault kind.id vm (some (f text.bytes)) (RawStack.of f stack)

def Event.fields (e : Event p) : Incoming := e.fieldsWith id

def Event.strings : Event p → List CString
  | createVM _ => []
  | destroyVM _ => []
  | loadScript _ fileName source _ => [fileName,source]
  | setBreakpoint _ _ _ _ => []
  | message _ _ content => [content]
  | nameVM _ name => [name]
  | .break _ stack => stack.frames.map Frame.name
  | evaluateRet _ _ _ _ result => [result]
  | expandTableRet _ _ _ _ result _ => [result]
  | fault _ _ text stack => text :: stack.frames.map Frame.name

end Fields

section Readers

variable (τ : Timing)

/-- `line + 1` raises on nil for every frame that is listed. -/
def readFrame : Reading RawFrame :=
  readUInt32 τ >>= fun fileId => readUInt32 τ >>= fun line => readString τ >>= fun func =>
    if fileId ≠ some 0xffffffff ∧ line = none then raise else pure ⟨fileId,line,func⟩

def readFrames : ℕ → Reading (List RawFrame)
  | 0 => pure []
  | n+1 => readFrame τ >>= fun f => readFrames n >>= fun fs => pure (f::fs)

/-- The reads of `handleBreak`; the loop raises on a nil limit. -/
def readStack : Reading RawStack :=
  readUInt32 τ >>= fun reason => readUInt32 τ >>= fun numStackFrames =>
    match numStackFrames with
    | none => raise
    | some n => readFrames τ n >>= fun frames => pure ⟨reason,frames⟩

def readBody (eventId nvm : ℕ) : Reading Incoming :=
  if eventId = EventId.loadScript then
    readString τ >>= fun name => readString τ >>= fun source => readUInt32 τ >>= fun codeState =>
      pure (.loadScript nvm name source codeState)
  else if eventId = EventId.message then
    readUInt32 τ >>= fun type => readString τ >>= fun content => pure (.message nvm type content)
  else if eventId = EventId.createVM then pure (.createVM nvm)
  else if eventId = EventId.nameVM then readString τ >>= fun data => pure (.nameVM nvm data)
  else if eventId = EventId.setBreakpoint then
    readUInt32 τ >>= fun fileId => readUInt32 τ >>= fun line => readUInt32 τ >>= fun set =>
      pure (.setBreakpoint nvm fileId line set)
  else if eventId = EventId.break then readStack τ >>= fun stack => pure (.break nvm stack)
  else if eventId = EventId.destroyVM then pure (.destroyVM nvm)
  else if eventId = EventId.loadError ∨ eventId = EventId.exception then
    -- the id and the VM of the Break that follows are both read as 32 bits
    readString τ >>= fun errorMsg => readUInt32 τ >>= fun _ => readUInt32 τ >>= fun _ =>
      readStack τ >>= fun stack => pure (.fault eventId nvm errorMsg stack)
  else if eventId = EventId.evaluateRet ∨ eventId = EventId.expandTableRet then
    readUInt32 τ >>= fun seq => readUInt32 τ >>= fun stackLevel => readBool τ >>= fun success =>
      readString τ >>= fun result =>
        if eventId = EventId.evaluateRet then pure (.evaluateRet nvm seq stackLevel success result)
        else
          -- the result is decoded before the last field is read
          match parseEvaluateResult success result with
          | .error _ => raise
          | .ok _ => readUInt32 τ >>= fun reference =>
              pure (.expandTableRet nvm seq stackLevel success result reference)
  else pure (.unknown nvm)

def update (m_size : PointerSize) : Reading (Option Incoming) :=
  nReadUInt32 τ >>= fun eventId =>
    match eventId with
    | none => pure none
    | some eventId => readUInt τ m_size >>= fun nvm =>
      match nvm with
      | none => raise
      | some nvm => readBody τ eventId nvm >>= fun incoming => pure (some incoming)

end Readers

end Vecoda.EventStream
