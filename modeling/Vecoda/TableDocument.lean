import Vecoda.Framing
import Vecoda.XmlSimple

/-!
# The document of an expanded table

GetValueAsText and GetTableAsText over a heap of tables, with what each
metamethod call gave written into the value it was called for. Only the stack
checks are left out. A name made from a null string has no document.
-/

set_option autoImplicit false

namespace Vecoda.TableDocument
open MessagePipe LuaText XmlSimple

abbrev Numeral := {s : Bytes // blank s = false}

inductive Called where
  | failed (message : Option Bytes)
  | returned (string : Option Bytes)

structure Userdata where
  className : Option Bytes
  pointer : Bytes
  tostring : Option Called

/-- `watched u others last`: `__towatch` of `u` gave `last` after `others`, which
stand here as `lua_tostring` reads them; a call without results counts as one nil.
`unwatchable`: it failed. `cdata` is the type LuaJIT adds. -/
inductive Value where
  | nil
  | boolean (b : Bool)
  | number (n : Numeral)
  | string (s : Bytes)
  | table (t : ℕ)
  | function (script lineDefined : ℤ)
  | userdata (u : Userdata)
  | unwatchable (u : Userdata) (message : Option Bytes)
  | watched (u : Userdata) (others : List (Option Bytes)) (last : Value)
  | thread
  | cdata

structure Debuggee where
  entries : ℕ → List (Value × Value)
  cacheTable : ℕ → ℤ
  wideCharToMultiByte : Bytes → Bytes

inductive TiXmlElement where
  | leaf (tag data : Bytes)
  | node (tag : Bytes) (attributes : List (Bytes × Bytes)) (children : List TiXmlElement)

def sprintfD : ℤ → Bytes
  | .ofNat n => Framing.decimal n
  | .negSucc n => byte '-' :: Framing.decimal (n+1)

def writeXmlNode (tag : String) (data : Bytes) : TiXmlElement := .leaf (text tag) data

def writeValue (data type : Bytes) : TiXmlElement :=
  .node (text "value") [] [writeXmlNode "data" data,writeXmlNode "type" type]

def writeFunction (script line : ℤ) : TiXmlElement :=
  .node (text "function") [] [writeXmlNode "script" (sprintfD script),writeXmlNode "line" (sprintfD line)]

section Writing

variable (d : Debuggee)

/-- The text of a string, and whether it was taken for a wide one. -/
def getAsciiString (s : Bytes) : Bytes × Bool :=
  if 0 ∉ s then (s,false)
  else
    let converted := d.wideCharToMultiByte s
    let result := if converted ≠ [] then converted else s
    (result.flatMap (fun b => if b = 0 then text "\\0" else [b]),converted ≠ [])

def stringAsText (displayAsKey : Bool) (s : Bytes) : Bytes :=
  let (result,wide) := getAsciiString d s
  if displayAsKey then result
  else (if wide then text "L" else []) ++ text "\"" ++ result ++ text "\""

def bracketed (displayAsKey : Bool) (result : Bytes) : Bytes :=
  if displayAsKey then text "[" ++ result ++ text "]" else result

def Userdata.typeName (u : Userdata) : Bytes :=
  let className := u.className.getD []
  if className = [] then text "userdata" else className

def watchedName (u : Userdata) : List (Option Bytes) → Option Bytes
  | [] => some u.typeName
  | first::_ => first.map cstr

def errorAsText (message : Option Bytes) : TiXmlElement :=
  writeXmlNode "error" ((message.map cstr).getD (text "Error executing __tostring"))

def userdataAsText (displayAsKey : Bool) (u : Userdata) : TiXmlElement :=
  match u.tostring with
  | some (.failed message) => errorAsText message
  | some (.returned (some string)) => writeValue (cstr string) u.typeName
  | _ => writeValue (bracketed displayAsKey (text "0x" ++ u.pointer)) u.typeName

def getValueAsText (tableAsText : ℕ → Bytes → Option TiXmlElement) (displayAsKey : Bool) :
    Value → Option Bytes → Option TiXmlElement
  | .nil, typeNameOverride =>
    some (writeValue (bracketed displayAsKey (text "nil")) (typeNameOverride.getD (text "nil")))
  | .boolean b, typeNameOverride =>
    some (writeValue (bracketed displayAsKey (text (if b then "true" else "false")))
      (typeNameOverride.getD (text "boolean")))
  | .number n, typeNameOverride =>
    some (writeValue (bracketed displayAsKey n.val) (typeNameOverride.getD (text "number")))
  | .string s, typeNameOverride =>
    some (writeValue (stringAsText d displayAsKey s) (typeNameOverride.getD (text "string")))
  | .table t, typeNameOverride => tableAsText t (typeNameOverride.getD (text "table"))
  | .function script lineDefined, _ => some (writeFunction script (lineDefined-1))
  | .userdata u, _ => some (userdataAsText displayAsKey u)
  | .unwatchable _ message, _ => some (errorAsText message)
  | .watched u others last, _ => do
    let className ← watchedName u others
    getValueAsText tableAsText displayAsKey last (some className)
  | .thread, typeNameOverride =>
    some (writeValue (bracketed displayAsKey (text "thread")) (typeNameOverride.getD (text "thread")))
  -- no text is made for a type that is none of Lua's own
  | .cdata, typeNameOverride =>
    some (writeValue (bracketed displayAsKey []) (typeNameOverride.getD (text "cdata")))

def entryAsText (tableAsText : ℕ → Bytes → Option TiXmlElement) (e : Value × Value) :
    Option TiXmlElement := do
  let key ← getValueAsText d tableAsText true e.1 none
  let value ← getValueAsText d tableAsText false e.2 none
  return .node (text "element") [] [.node (text "key") [] [key],.node (text "data") [] [value]]

def tableNode (typeName : Bytes) (attributes : List (Bytes × Bytes)) (elements : List TiXmlElement) :
    TiXmlElement :=
  .node (text "table") attributes (writeXmlNode "type" typeName :: elements)

def emptyAttribute (t : ℕ) : List (Bytes × Bytes) :=
  if (d.entries t).isEmpty then [(text "empty",sprintfD 1)] else []

/-- `GetTableAsText`, `maxDepth` counting from zero for what is not above it. The
tables of an entry are two levels down. -/
def getTableAsText : ℕ → ℕ → Bytes → Option TiXmlElement
  | 0, t, typeName =>
    some (tableNode typeName
      (if (d.entries t).isEmpty then emptyAttribute d t
       else [(text "reference",sprintfD (d.cacheTable t))]) [])
  | 1, t, typeName => do
    let elements ← (d.entries t).mapM (entryAsText d (getTableAsText 0))
    return tableNode typeName (emptyAttribute d t) elements
  | maxDepth+2, t, typeName => do
    let elements ← (d.entries t).mapM (entryAsText d (getTableAsText maxDepth))
    return tableNode typeName (emptyAttribute d t) elements

def expandTable (t : ℕ) : Option TiXmlElement :=
  getValueAsText d (getTableAsText d 1) false (.table t) none

end Writing

def delivered (data : Bytes) : Option Bytes := if blank data then none else some data

mutual
def parsed : TiXmlElement → Node
  | .leaf tag data => .mk (some tag) (delivered data) [] []
  | .node tag attributes children => .mk (some tag) none (parsedAll children) attributes

def parsedAll : List TiXmlElement → List Node
  | [] => []
  | child::children => parsed child :: parsedAll children
end

theorem parsedAll_map (xs : List TiXmlElement) : parsedAll xs = xs.map parsed := by
  induction xs with
  | nil => rfl
  | cons x xs ih => rw [parsedAll, ih, List.map_cons]

def document (x : TiXmlElement) : Node := .mk none none [parsed x] []

def keyText (d : Debuggee) : Value → Option Bytes
  | .nil => some (bracketed true (text "nil"))
  | .boolean b => some (bracketed true (text (if b then "true" else "false")))
  | .number n => some (bracketed true n.val)
  | .string s => some (getAsciiString d s).1
  | .table _ => none
  | .function script _ => some (sprintfD script)
  | .userdata u =>
    match u.tostring with
    | some (.failed _) => none
    | some (.returned (some string)) => some (cstr string)
    | _ => some (bracketed true (text "0x" ++ u.pointer))
  | .unwatchable _ _ => none
  | .watched u others last => if (watchedName u others).isSome then keyText d last else none
  | .thread => some (bracketed true (text "thread"))
  | .cdata => some (bracketed true [])

def keyShown (d : Debuggee) (k : Value) : Bool := (keyText d k).any (!blank ·)

/-- The value is displayed by a text and a type that are not blank: its type is
`type` where `__towatch` named it, and a function's file is loaded. -/
def valueShown (loaded : ℤ → Bool) : Value → Option Bytes → Bool
  | .table _, _ => true
  | .function script _, _ => decide (script ≤ 0) || loaded script
  | .userdata u, _ =>
    !blank u.typeName &&
      match u.tostring with
      | some (.failed _) => false
      | some (.returned (some string)) => !blank (cstr string)
      | _ => true
  | .unwatchable _ _, _ => false
  | .watched u others last, _ =>
    (watchedName u others).any (fun type => valueShown loaded last (some type))
  | .cdata, _ => false
  | _, type => type.all (!blank ·)

def entryShown (d : Debuggee) (loaded : ℤ → Bool) (e : Value × Value) : Bool :=
  keyShown d e.1 && valueShown loaded e.2 none

end Vecoda.TableDocument
