import Vecoda.JsonGrammar
import Vecoda.LuaText

/-!
# The strings of json.lua

`encode_string`, and what `decode_string` makes of the bytes between the quotes:
up to three calls of `string.gsub`, one after the other. The calls do not know
which backslashes are escaped themselves, so an escaped backslash may be read
as the start of a Unicode escape.
-/

set_option autoImplicit false

namespace Vecoda.JsonStrings
open MessagePipe LuaText JsonGrammar

def escapeMap : List (UInt8 × UInt8) :=
  [(code '"',code '"'),(code '\\',code '\\'),(code '/',code '/'),(8,code 'b'),(12,code 'f'),
    (10,code 'n'),(13,code 'r'),(9,code 't')]

def encodeEscape (b : UInt8) : Option UInt8 := escapeMap.lookup b

def decodeEscape (c : UInt8) : Option UInt8 := (escapeMap.map Prod.swap).lookup c

def decodeEscapeSet (c : UInt8) : Bool := (escapeMap.map Prod.snd).contains c

def lowerDigit (n : ℕ) : UInt8 := UInt8.ofNat (if n < 10 then 48 + n else 87 + n)

def unicodeText (n : ℕ) : Bytes :=
  text "\\u" ++ [lowerDigit (n / 4096 % 16),lowerDigit (n / 256 % 16),lowerDigit (n / 16 % 16),
    lowerDigit (n % 16)]

def special (b : UInt8) : Bool := b < 32 || b = code '\\' || b = code '"'

def encodeByte (b : UInt8) : Bytes :=
  if special b then
    match encodeEscape b with
    | some c => [code '\\',c]
    | none => unicodeText b.toNat
  else [b]

def encodeString (v : Bytes) : Bytes := v.flatMap encodeByte

section Gsub

/-- `string.gsub`: `find` gives what a match at the front is replaced by, and how many bytes
follow the first in the match. The first argument counts the bytes of a match still to pass. -/
def gsubFrom (find : Bytes → Option (ℕ × Bytes)) : ℕ → Bytes → Bytes
  | _, [] => []
  | passed+1, _::bs => gsubFrom find passed bs
  | 0, b::bs =>
    match find (b::bs) with
    | some (n,repl) => repl ++ gsubFrom find n bs
    | none => b :: gsubFrom find 0 bs

def gsub (find : Bytes → Option (ℕ × Bytes)) (s : Bytes) : Bytes := gsubFrom find 0 s

theorem gsubFrom_drop (find : Bytes → Option (ℕ × Bytes)) (n : ℕ) (s : Bytes) :
    gsubFrom find n s = gsub find (s.drop n) := by
  induction s generalizing n with
  | nil => cases n <;> rfl
  | cons b bs ih =>
    cases n with
    | zero => rfl
    | succ n => exact ih n

theorem gsub_match (find : Bytes → Option (ℕ × Bytes)) (b : UInt8) (bs repl : Bytes) (n : ℕ)
    (h : find (b::bs) = some (n,repl)) : gsub find (b::bs) = repl ++ gsub find (bs.drop n) := by
  rw [gsub, gsubFrom, h]
  exact congrArg (repl ++ ·) (gsubFrom_drop find n bs)

theorem gsub_pass (find : Bytes → Option (ℕ × Bytes)) (b : UInt8) (bs : Bytes)
    (h : find (b::bs) = none) : gsub find (b::bs) = b :: gsub find bs := by
  rw [gsub, gsubFrom, h]
  rfl

@[simp] theorem gsub_nil (find : Bytes → Option (ℕ × Bytes)) : gsub find [] = [] := rfl

/-- Bytes that no match starts at are left as they are. -/
theorem gsub_through (find : Bytes → Option (ℕ × Bytes)) (a t : Bytes)
    (h : ∀ v, v <:+ a → v ≠ [] → find (v ++ t) = none) : gsub find (a ++ t) = a ++ gsub find t := by
  induction a with
  | nil => rfl
  | cons b a ih =>
    have hb := h (b::a) List.suffix_rfl (List.cons_ne_nil b a)
    rw [List.cons_append] at hb
    rw [List.cons_append, gsub_pass find b _ hb,
      ih (fun v hv => h v (hv.trans (List.suffix_cons b a))), List.cons_append]

end Gsub

section Patterns

def utf8Char (code : ℕ) : Bytes :=
  if code < 0x80 then [UInt8.ofNat code]
  else if code < 0x800 then [UInt8.ofNat (0xC0 + code / 64),UInt8.ofNat (0x80 + code % 64)]
  else if code < 0x10000 then
    [UInt8.ofNat (0xE0 + code / 4096),UInt8.ofNat (0x80 + code / 64 % 64),
      UInt8.ofNat (0x80 + code % 64)]
  else
    [UInt8.ofNat (0xF0 + code / 262144),UInt8.ofNat (0x80 + code / 4096 % 64),
      UInt8.ofNat (0x80 + code / 64 % 64),UInt8.ofNat (0x80 + code % 64)]

def unicodeEscape : Bytes → Option ℕ
  | a::u::x::y::z::w::_ =>
    if a = code '\\' ∧ u = code 'u' ∧ [x,y,z,w].all hexadecimal then
      some (ofDigits hexDigit 16 [x,y,z,w])
    else none
  | _ => none

/-- The second call; six bytes are one character. -/
def decodeUnicodeEscape (s : Bytes) : Option (ℕ × Bytes) :=
  (unicodeEscape s).map (fun code => (5,utf8Char code))

/-- The first call: `[dD][89aAbB]%x%x` spells a code from 0xD800 up to 0xDBFF, and
`[dD][c-fC-F]%x%x` one from 0xDC00 up to 0xDFFF. -/
def decodeUnicodeSurrogate (s : Bytes) : Option (ℕ × Bytes) :=
  match unicodeEscape s, unicodeEscape (s.drop 6) with
  | some s1, some s2 =>
    if (0xD800 ≤ s1 ∧ s1 ≤ 0xDBFF) ∧ 0xDC00 ≤ s2 ∧ s2 ≤ 0xDFFF then
      some (11,utf8Char (0x10000 + (s1 - 0xD800) * 0x400 + (s2 - 0xDC00)))
    else none
  | _, _ => none

def decodeSimpleEscape : Bytes → Option (ℕ × Bytes)
  | a::c::_ =>
    if a = code '\\' then
      some (1,match decodeEscape c with | some b => [b] | none => [a,c])
    else none
  | _ => none

structure Flags where
  unicode : Bool
  simple : Bool
  deriving DecidableEq

def decodeBody (flags : Flags) (s : Bytes) : Bytes :=
  let s := if flags.unicode then
      gsub decodeUnicodeEscape (gsub decodeUnicodeSurrogate s)
    else s
  if flags.simple then gsub decodeSimpleEscape s else s

/-- The escapes that a body holds; the digits of a Unicode escape are passed as plain bytes. -/
def flagsOf : Bytes → Flags
  | [] => ⟨false,false⟩
  | b::bs =>
    if b = code '\\' then
      match bs with
      | [] => ⟨false,false⟩
      | c::cs =>
        if c = code 'u' then { flagsOf cs with unicode := true }
        else { flagsOf cs with simple := true }
    else flagsOf bs

def bodyValue (s : Bytes) : Bytes := decodeBody (flagsOf s) s

end Patterns

example : bodyValue (encodeString [1,code 'a',code '\\',code 'u']) = [1,code 'a',code '\\',code 'u'] := by
  decide

section Spelling

inductive Symbol where
  | byte (b : UInt8)
  | escape (c : UInt8)
  deriving DecidableEq

inductive Segment where
  | symbol (s : Symbol)
  | unicode (code : ℕ)
  deriving DecidableEq

def segments : Bytes → List Segment
  | [] => []
  | b::bs =>
    if b = code '\\' then
      match bs with
      | [] => [.symbol (.byte b)]
      | c::cs =>
        if c = code 'u' then
          match cs with
          | x::y::z::w::ds => .unicode (ofDigits hexDigit 16 [x,y,z,w])::segments ds
          | _ => [.symbol (.byte b),.symbol (.byte c)]
        else .symbol (.escape c)::segments cs
    else .symbol (.byte b)::segments bs

/-- Two Unicode escapes of a surrogate pair are one character. -/
def symbols : List Segment → List Symbol
  | [] => []
  | .symbol s::ps => s::symbols ps
  | .unicode s1::.unicode s2::ps =>
    if (0xD800 ≤ s1 ∧ s1 ≤ 0xDBFF) ∧ 0xDC00 ≤ s2 ∧ s2 ≤ 0xDFFF then
      (utf8Char (0x10000 + (s1 - 0xD800) * 0x400 + (s2 - 0xDC00))).map .byte ++ symbols ps
    else (utf8Char s1).map .byte ++ symbols (.unicode s2::ps)
  | .unicode s1::ps => (utf8Char s1).map .byte ++ symbols ps

def Symbol.value : Symbol → UInt8
  | byte b => b
  | escape c => (decodeEscape c).getD c

/-- What a body denotes, escape by escape. -/
def meant (body : Bytes) : Bytes := (symbols (segments body)).map Symbol.value

def unescaped (ps : List Segment) : Bool :=
  match ps.take 5 with
  | [.symbol (.byte u),.symbol (.byte x),.symbol (.byte y),.symbol (.byte z),.symbol (.byte w)] =>
    u = code 'u' && [x,y,z,w].all hexadecimal
  | _ => false

/-- Such bytes stand behind an escaped backslash. -/
def hides : List Segment → Bool
  | [] => false
  | p::ps => (p = .symbol (.escape (code '\\')) && unescaped ps) || hides ps

def takes : List Symbol → Bool
  | [] => false
  | .byte c::_ => decodeEscapeSet c
  | .escape c::ss => if c = code '\\' then takes ss else decodeEscape c ≠ some c

/-- This happens to a backslash that a Unicode escape denotes. -/
def strays : List Symbol → Bool
  | [] => false
  | .byte b::ss => (b = code '\\' && takes ss) || strays ss
  | .escape _::ss => strays ss

def mistaken (body : Bytes) : Bool :=
  (flagsOf body).unicode && (flagsOf body).simple &&
    (hides (segments body) || strays (symbols (segments body)))

end Spelling

example : mistaken (ascii "\\u0001\\\\u0041") = true ∧
    meant (ascii "\\u0001\\\\u0041") = 1::ascii "\\u0041" ∧
    bodyValue (ascii "\\u0001\\\\u0041") = 1::ascii "\\A" := by
  decide +kernel

end Vecoda.JsonStrings
