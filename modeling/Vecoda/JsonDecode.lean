import Vecoda.JsonStrings
import Vecoda.Framing

/-!
# The decoder of json.lua

`json.decode` keeps the containers that are open on a stack and goes on with
the topmost one until the stack is empty. `statusPos` is given by the bytes
from it on. What `tonumber` and the unary minus make of a numeral is a
parameter.
-/

set_option autoImplicit false

namespace Vecoda.JsonDecode
open MessagePipe LuaText JsonGrammar JsonStrings

/-- The message of `decode_error` and the number of bytes from `statusPos` on, which is
negative behind the end of the text. -/
structure Failure where
  message : Bytes
  left : ℤ
  deriving DecidableEq

abbrev Decode (α : Type) := Except Failure α

def decodeError {α : Type} (message s : Bytes) : Decode α := .error ⟨message,s.length⟩

def getWord (s : Bytes) : Bytes := s.takeWhile (fun b => !separator b)

def expectByte (c : UInt8) (s : Bytes) : Decode Bytes :=
  if (s.dropWhile blank).head? = some c then .ok (s.dropWhile blank)
  else decodeError (text "expected '" ++ [c] ++ text "'") s

section Strings

structure Scanned where
  body : Bytes
  flags : Flags
  rest : Bytes

def Scanned.push (r : Scanned) (body : Bytes) : Scanned := { r with body := body ++ r.body }

def Scanned.pushUnicode (r : Scanned) (body : Bytes) : Scanned :=
  ⟨body ++ r.body,{ r.flags with unicode := true },r.rest⟩

def Scanned.pushSimple (r : Scanned) (body : Bytes) : Scanned :=
  ⟨body ++ r.body,{ r.flags with simple := true },r.rest⟩

/-- The loop of `decode_string`. The first argument is the text at the opening quote, where
`statusPos` stays until the end of the loop or an error inside of the string. -/
def scanString (opening : Bytes) : Bytes → Decode Scanned
  | [] => decodeError (text "expected closing quote for string") opening
  | b::bs =>
    if b < 32 then decodeError (text "control character in string") (b::bs)
    else if b = code '"' then .ok ⟨[],⟨false,false⟩,bs⟩
    else if b = code '\\' then
      match bs with
      | [] => decodeError (text "invalid escape char '<eol>' in string") [b]
      | c::cs =>
        if c = code 'u' then
          match cs with
          | x::y::z::w::ds =>
            if [x,y,z,w].all hexadecimal then
              (scanString opening ds).map (·.pushUnicode [b,c,x,y,z,w])
            else decodeError (text "invalid unicode escape in string") (b::c::cs)
          | _ => decodeError (text "invalid unicode escape in string") (b::c::cs)
        else if decodeEscapeSet c then (scanString opening cs).map (·.pushSimple [b,c])
        else decodeError (text "invalid escape char '" ++ [c] ++ text "' in string") (b::c::cs)
    else (scanString opening bs).map (·.push [b])

def decodeString (s : Bytes) : Decode (Bytes × Bytes) :=
  (scanString s s.tail).map (fun r => (decodeBody r.flags r.body,r.rest))

end Strings

section Numbers

variable {N : Type}

structure Numbers (N : Type) where
  tonumber : Bytes → N
  neg : N → N

/-- A string denotes what its escapes do one by one, unless it is mistaken. -/
def Numbers.meaning (nums : Numbers N) : Meaning N where
  string body := if mistaken body then bodyValue body else meant body
  numeral := nums.tonumber
  neg := nums.neg

def point : Bytes → Bytes × Bytes
  | [] => ([],[])
  | b::bs =>
    if b = code '.' then (b::bs.takeWhile digit,bs.dropWhile digit)
    else ((b::bs).takeWhile digit,(b::bs).dropWhile digit)

def signed : Bytes → Bytes × Bytes
  | [] => ([],[])
  | b::bs => if b = code '-' ∨ b = code '+' then ([b],bs) else ([],b::bs)

def exponentMark (b : UInt8) : Bool := b = code 'e' || b = code 'E'

/-- `[eE][-+]?[0-9]+` with a byte of ``[ \t\r\n%]},]`` behind it. -/
def exponent : Bytes → Option (Bytes × Bytes)
  | [] => none
  | e::s =>
    let sign := (signed s).1
    let digits := (signed s).2.takeWhile digit
    let rest := (signed s).2.dropWhile digit
    if digits ≠ [] ∧ rest.head?.any separator then some (e::sign ++ digits,rest) else none

def invalidNumber {α : Type} (s : Bytes) : Decode α :=
  decodeError (text "invalid number '" ++ getWord s ++ text "'") s

def numberFrom (s whole rest : Bytes) : Decode (Bytes × Bytes) :=
  let num := whole ++ (point rest).1
  let rest := (point rest).2
  if num.getLast? = some (code '.') then invalidNumber s
  else if rest.head?.any exponentMark then
    match exponent rest with
    | some (e,rest) => .ok (num ++ e,rest)
    | none => invalidNumber s
  else .ok (num,rest)

def decodeNumber (s : Bytes) : Decode (Bytes × Bytes) :=
  if s.takeWhile digit = [] then invalidNumber s
  else numberFrom s (s.takeWhile digit) (s.dropWhile digit)

def decodeNumberZero (s : Bytes) : Decode (Bytes × Bytes) :=
  if s.tail.head?.any digit then invalidNumber s
  else numberFrom s (s.take 1) s.tail

variable (nums : Numbers N)

def decodeNumberNegative (s : Bytes) : Decode (N × Bytes) :=
  let s := s.tail
  let negated (r : Bytes × Bytes) : N × Bytes := (nums.neg (nums.tonumber r.1),r.2)
  match s with
  | [] => invalidNumber s
  | c::_ =>
    if c = code '0' then (decodeNumberZero s).map negated
    else if code '0' < c ∧ c < 58 then (decodeNumber s).map negated
    else invalidNumber s

end Numbers

section Machine

variable {N : Type}

/-- What `decode` returns: a finished value, or a container it has put on the stack. -/
inductive Decoded (N : Type) where
  | value (v : Value N) (rest : Bytes)
  | opened (kind : Kind) (rest : Bytes)

def decodeLiteral (word : String) (v : Value N) (s : Bytes) : Decode (Decoded N) :=
  if s.take (ascii word).length = ascii word then .ok (.value v (s.drop (ascii word).length))
  else decodeError (text "invalid literal '" ++ getWord s ++ text "'") s

def decodeContainer (kind : Kind) (s : Bytes) : Decoded N :=
  if (s.tail.dropWhile blank).head? = some kind.closing then
    .value (kind.empty : Container N).value (s.tail.dropWhile blank).tail
  else .opened kind s.tail

variable (nums : Numbers N)

def decodeMap (b : UInt8) (s : Bytes) : Decode (Decoded N) :=
  let number (r : Bytes × Bytes) : Decoded N := .value (.number (nums.tonumber r.1)) r.2
  if b = code '"' then (decodeString s).map (fun r => .value (.string r.1) r.2)
  else if b = code '0' then (decodeNumberZero s).map number
  else if digit b then (decodeNumber s).map number
  else if b = code '-' then
    (decodeNumberNegative nums s).map (fun r => .value (.number r.1) r.2)
  else if b = code 't' then decodeLiteral "true" (.boolean true) s
  else if b = code 'f' then decodeLiteral "false" (.boolean false) s
  else if b = code 'n' then decodeLiteral "null" .null s
  else if b = code '[' then .ok (decodeContainer .array s)
  else if b = code '\x7b' then .ok (decodeContainer .object s)
  else decodeError (text "unexpected character '" ++ [b] ++ text "'") s

def decodeNext (s : Bytes) : Decode (Decoded N) :=
  match s.dropWhile blank with
  | [] => decodeError (text "unexpected character '<eol>'") s
  | b::bs => decodeMap nums b (b::bs)

/-- `statusAry` and `statusRef`, the topmost container apart from those below, which wait for
the value of the one above them. -/
structure Machine (N : Type) where
  top : Container N
  below : List (Slot N)
  rest : Bytes

def decodeSlot : Container N → Bytes → Decode (Slot N × Bytes)
  | .array items, s => .ok (.item items,s)
  | .object entries, s => do
    let (key,s) ← decodeString (← expectByte (code '"') s)
    return (.field entries key,(← expectByte (code ':') s).tail)

inductive Outcome (N : Type) where
  | more (m : Machine N)
  | done (v : Value N) (rest : Bytes)

def expectedEnd (kind : Kind) : Bytes := text "expected '" ++ [kind.closing] ++ text "' or ','"

def decodeEnd (c : Container N) (below : List (Slot N)) (s : Bytes) : Decode (Outcome N) :=
  match s.dropWhile blank with
  | [] => .error ⟨expectedEnd c.kind,(s.length : ℤ) - 1⟩
  | chr::rest =>
    if chr = code ',' then .ok (.more ⟨c,below,rest⟩)
    else if chr ≠ c.kind.closing then decodeError (expectedEnd c.kind) rest
    else
      match below with
      | [] => .ok (.done c.value rest)
      | slot::below => decodeEnd (slot.fill c.value) below rest

def decodeItem (m : Machine N) : Decode (Outcome N) := do
  let (slot,s) ← decodeSlot m.top m.rest
  match ← decodeNext nums s with
  | .value v s => decodeEnd (slot.fill v) m.below s
  | .opened kind s => .ok (.more ⟨kind.empty,slot::m.below,s⟩)

end Machine

section Progress

theorem dropWhile_le (p : UInt8 → Bool) (s : Bytes) : (s.dropWhile p).length ≤ s.length :=
  (List.dropWhile_suffix p).length_le

theorem decodeEnd_shorter {N : Type} (c : Container N) (below : List (Slot N)) (s : Bytes)
    (m : Machine N) (h : decodeEnd c below s = .ok (.more m)) : m.rest.length < s.length := by
  induction below generalizing c s with
  | nil =>
    rw [decodeEnd] at h
    have hs := dropWhile_le blank s
    split at h
    · cases h
    · next chr rest he =>
      rw [he, List.length_cons] at hs
      split_ifs at h
      · injection h with h
        injection h with h
        subst h
        exact hs
      · cases h
      · cases h
  | cons slot below ih =>
    rw [decodeEnd] at h
    have hs := dropWhile_le blank s
    split at h
    · cases h
    · next chr rest he =>
      rw [he, List.length_cons] at hs
      split_ifs at h
      · injection h with h
        injection h with h
        subst h
        exact hs
      · cases h
      · exact lt_trans (ih _ _ h) hs

end Progress

end Vecoda.JsonDecode
