import Mathlib.Data.Finset.Card
import Mathlib.Data.Fintype.Card
import Mathlib.Data.List.Lex
import Mathlib.Order.Lex
import Vecoda.JsonEscapes

/-!
# The encoder of json.lua

`json.encode` over a heap of tables that may refer to each other. The values
that it accepts unfold to trees without cycles, objects ordered by their keys;
the text is that of the tree. How Lua writes a number is a parameter.
-/

set_option autoImplicit false

namespace Vecoda.JsonEncode
open MessagePipe LuaText JsonGrammar JsonStrings

section Heap

/-- What a table is indexed by. A float key is given by its text; other values than strings and
numbers have none. -/
inductive Key where
  | string (s : Bytes)
  | integer (n : ℤ)
  | float (text : Bytes)
  | other
  deriving DecidableEq

inductive Unexpected where
  | function
  | userdata
  | thread
  deriving DecidableEq

def Unexpected.name : Unexpected → String
  | function => "function"
  | userdata => "userdata"
  | thread => "thread"

inductive LuaValue (N : Type) (n : ℕ) where
  | nil
  | boolean (b : Bool)
  | number (x : N)
  | string (s : Bytes)
  | null
  | unexpected (type : Unexpected)
  | table (t : Fin n)

/-- The entries of a table in the order of `next`, and whether its metatable is `objectMt`. -/
structure Table (N : Type) (n : ℕ) where
  entries : List (Key × LuaValue N n)
  objectMt : Bool
  distinct : (entries.map Prod.fst).Nodup
  present : ∀ e ∈ entries, e.2 ≠ .nil

abbrev Heap (N : Type) (n : ℕ) := Fin n → Table N n

def Table.get {N : Type} {n : ℕ} (t : Table N n) (k : Key) : LuaValue N n :=
  (t.entries.lookup k).getD .nil

/-- How numbers are written: not at all unless `finite`, by `%d` or `convertreal`, and by
`tostring` in an error. -/
structure Formats (N : Type) where
  finite : N → Bool
  format : N → Bytes
  tostring : N → Bytes

/-- An error has the text that the source gives it, or it is that of a concatenation. -/
inductive EncodeError where
  | raised (message : Bytes)
  | concatenation
  deriving DecidableEq

def integerText (n : ℤ) : Bytes :=
  if n < 0 then code '-' :: Framing.decimal n.natAbs else Framing.decimal n.natAbs

def invalidKey (k : Key) : EncodeError :=
  let message (s : Bytes) : EncodeError :=
    .raised (text "invalid table: mixed or invalid key types: " ++ s)
  match k with
  | .string s => message s
  | .integer n => message (integerText n)
  | .float t => message t
  | .other => .concatenation

end Heap

section Encoding

variable {N : Type} {n : ℕ}

def keyLe (a b : Bytes) : Bool := a.map UInt8.toNat ≤ b.map UInt8.toNat

def stringKeys : List (Key × LuaValue N n) → Except EncodeError (List Bytes)
  | [] => .ok []
  | (.string k,_)::es => (stringKeys es).map (k :: ·)
  | (k,_)::_ => .error (invalidKey k)

def maxKey (max : ℕ) : List (Key × LuaValue N n) → Except EncodeError ℕ
  | [] => .ok max
  | (.integer k,_)::es =>
    if k ≤ 0 then .error (invalidKey (.integer k))
    else maxKey (if (max : ℤ) < k then k.toNat else max) es
  | (k,_)::_ => .error (invalidKey k)

def separated {α : Type} (first next : Bytes) : List α → List (Bytes × α)
  | [] => []
  | a::as => (first,a)::as.map (fun b => (next,b))

def objectPieces (t : Table N n) (keys : List Bytes) : List (Bytes × LuaValue N n) :=
  (separated (text "\x7b") (text ",") (keys.mergeSort keyLe)).map (fun p =>
    (p.1 ++ quoted (encodeString p.2) ++ text ":",t.get (.string p.2)))

def arrayPieces (t : Table N n) (max : ℕ) : List (Bytes × LuaValue N n) :=
  separated (text "[") (text ",") ((List.range max).map (fun (i : ℕ) => t.get (.integer (i + 1))))

/-- The values of a table that is not empty, each behind what is written before it, and what
is written at the end. -/
def pieces (t : Table N n) : Except EncodeError (List (Bytes × LuaValue N n) × Bytes) :=
  match t.entries with
  | (.string _,_)::_ => (stringKeys t.entries).map (fun keys => (objectPieces t keys,text "\x7d"))
  | _ => (maxKey 0 t.entries).map (fun max => (arrayPieces t max,text "]"))

variable (f : Formats N) (heap : Heap N n)

mutual
def encodeValue (visited : Finset (Fin n)) (v : LuaValue N n) : Except EncodeError Bytes :=
  match v with
  | .nil => .ok (text "null")
  | .boolean b => .ok (text (if b then "true" else "false"))
  | .number x =>
    if f.finite x then .ok (f.format x)
    else .error (.raised (text "unexpected number value '" ++ f.tostring x ++ text "'"))
  | .string s => .ok (quoted (encodeString s))
  | .null => .ok (text "null")
  | .unexpected type =>
    .error (.raised (text "unexpected type '" ++ text type.name ++ text "'"))
  | .table t =>
    if (heap t).entries.isEmpty then .ok (text (if (heap t).objectMt then "\x7b\x7d" else "[]"))
    else if _h : t ∈ visited then .error (.raised (text "circular reference"))
    else
      match pieces (heap t) with
      | .error e => .error e
      | .ok (ps,closing) => (encodePieces (insert t visited) ps).map (· ++ closing)
termination_by (n - visited.card,0)
decreasing_by
  have := Finset.card_insert_of_notMem _h
  have := Finset.card_le_univ (insert t visited)
  rw [Fintype.card_fin] at this
  exact Prod.Lex.left _ _ (by omega)

def encodePieces (visited : Finset (Fin n)) (ps : List (Bytes × LuaValue N n)) :
    Except EncodeError Bytes :=
  match ps with
  | [] => .ok []
  | (before,v)::ps =>
    match encodeValue visited v with
    | .error e => .error e
    | .ok s => (encodePieces visited ps).map (before ++ s ++ ·)
termination_by (n - visited.card,ps.length + 1)
end

def encode (v : LuaValue N n) : Except EncodeError Bytes := encodeValue f heap ∅ v

end Encoding

section Trees

variable {N : Type}

mutual
def write (f : Formats N) : Value N → Bytes
  | .null => text "null"
  | .boolean b => text (if b then "true" else "false")
  | .number x => f.format x
  | .string s => quoted (encodeString s)
  | .array [] => text "[]"
  | .array (v::vs) => text "[" ++ write f v ++ writeItems f vs ++ text "]"
  | .object [] => text "\x7b\x7d"
  | .object ((k,v)::es) =>
    text "\x7b" ++ quoted (encodeString k) ++ text ":" ++ write f v ++ writeEntries f es ++ text "\x7d"

def writeItems (f : Formats N) : List (Value N) → Bytes
  | [] => []
  | v::vs => text "," ++ write f v ++ writeItems f vs

def writeEntries (f : Formats N) : List (Bytes × Value N) → Bytes
  | [] => []
  | (k,v)::es =>
    text "," ++ quoted (encodeString k) ++ text ":" ++ write f v ++ writeEntries f es
end

end Trees

end Vecoda.JsonEncode
