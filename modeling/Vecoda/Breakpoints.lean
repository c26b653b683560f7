import Vecoda.Backend

/-!
# The adapter's breakpoints

`setBreakpoints` of breakpoint.lua for a loaded file. Lua's compiler is a
parameter: `load chunk chunkname` is the message of a syntax error, if there
is one. `pairs` enumerates a table in an order that is not specified.
-/

set_option autoImplicit false

namespace Vecoda.Breakpoints
open MessagePipe LuaText

abbrev Load := Bytes → Bytes → Option Bytes

structure Pairs (α : Type) where
  list : List α → List α
  perm : ∀ xs, (list xs).Perm xs

/-- A breakpoint of a `setBreakpoints` request; `id` is set on the ones that
waited for their file. -/
structure SourceBreakpoint where
  line : ℤ
  id : Option ℕ
  condition : Option Bytes
  hitCondition : Option Bytes
  logMessage : Option Bytes
  deriving DecidableEq, Repr

structure StatLog where
  template : Bytes
  stats : List (Bytes × Bytes)
  deriving DecidableEq, Repr

structure Breakpoint where
  id : ℕ
  line : ℤ
  condition : Option Bytes
  hitCondition : Option Bytes
  statLog : Option StatLog
  hit : ℕ
  deriving DecidableEq, Repr

structure Reply where
  id : ℕ
  verified : Bool
  line : ℤ
  message : Option Bytes
  deriving DecidableEq, Repr

abbrev Table := List (ℤ × Breakpoint)

structure ObjFile where
  id : ℕ
  breakpoints : Table
  deriving DecidableEq, Repr

def balanced : ℕ → Bytes → Option Bytes
  | _, [] => none
  | depth, c::cs =>
    if c = byte '\x7d' then
      if depth = 1 then some [c] else (balanced (depth-1) cs).map (c :: ·)
    else if c = byte '\x7b' then (balanced (depth+1) cs).map (c :: ·)
    else (balanced depth cs).map (c :: ·)

def statKey (digits : Bytes) : Bytes := text "\x7b" ++ digits ++ text "\x7d"

/-- The `gsub` of the log message; `skip` bytes belong to the last match. -/
def statements : ℕ → ℕ → Bytes → StatLog
  | _, _, [] => ⟨[],[]⟩
  | skip+1, n, _::cs => statements skip n cs
  | 0, n, c::cs =>
    match if c = byte '\x7b' then balanced 1 cs else none with
    | some group =>
      let key := statKey (text (toString (n+1)))
      let rest := statements group.length (n+1) cs
      ⟨key ++ rest.template,(key,group.dropLast)::rest.stats⟩
    | none =>
      let rest := statements 0 n cs
      ⟨c::rest.template,rest.stats⟩

def nonempty (s : Option Bytes) : Option Bytes := if s = some [] then none else s

def statLog (logMessage : Option Bytes) : Option StatLog :=
  (nonempty logMessage).map (fun msg =>
    let log := statements 0 0 msg
    {log with template := log.template ++ text "\n"})

section SetBreakpoints

variable (load : Load)

/-- The check of a condition, hit conditions being completed with a zero. -/
def checked (pre kind : Bytes) (condition : Option Bytes) : Except Bytes (Option Bytes) :=
  match nonempty condition with
  | none => .ok none
  | some condition =>
    match load (pre ++ condition) condition with
    | some err => .error (kind ++ err)
    | none => .ok (some condition)

def prePostCond (bp : SourceBreakpoint) :
    Except Bytes (Option Bytes × Option Bytes × Option StatLog) := do
  let condition ← checked load (text "return ") (text "condition error: ") bp.condition
  let hitCondition ←
    checked load (text "return 0 ") (text "hit condition error: ") bp.hitCondition
  pure (condition,hitCondition,statLog bp.logMessage)

def put (table : Table) (line : ℤ) (bp : Breakpoint) : Table :=
  if line ∈ table.map Prod.fst then table.map (fun e => if e.1 = line then (line,bp) else e)
  else table ++ [(line,bp)]

structure Setting where
  nextId : ℕ
  bps : List Reply
  newBreakpoints : Table
  toggled : List ℤ

def checkAndPush (s : Setting) (bp : SourceBreakpoint) (new : Bool) : Setting :=
  let id := bp.id.getD (s.nextId+1)
  let nextId := if bp.id.isSome then s.nextId else s.nextId+1
  match prePostCond load bp with
  | .error err => {s with nextId := nextId, bps := s.bps ++ [⟨id,false,bp.line,some err⟩]}
  | .ok (condition,hitCondition,statLog) =>
    {nextId := nextId,
     bps := s.bps ++ [if new then ⟨id,false,bp.line,some (text "waiting for verified")⟩
                      else ⟨id,true,bp.line,none⟩],
     newBreakpoints := put s.newBreakpoints bp.line ⟨id,bp.line,condition,hitCondition,statLog,0⟩,
     toggled := if new then s.toggled ++ [bp.line-1] else s.toggled}

variable (pairs : Pairs (ℤ × Breakpoint))

def setBreakpoints (nextId : ℕ) (objFile : ObjFile) (breakpoints : List SourceBreakpoint) :
    ObjFile × List Reply × List ℤ × ℕ :=
  let s := breakpoints.foldl
    (fun s bp => checkAndPush load s bp (bp.line ∉ objFile.breakpoints.map Prod.fst)) ⟨nextId,[],[],[]⟩
  let removed := (pairs.list objFile.breakpoints).filter
    (fun e => e.2.line ∉ s.newBreakpoints.map Prod.fst)
  ({objFile with breakpoints := s.newBreakpoints},s.bps,
    s.toggled ++ removed.map (fun e => e.2.line-1),s.nextId)

end SetBreakpoints

end Vecoda.Breakpoints
