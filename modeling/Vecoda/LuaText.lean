import Mathlib.Data.List.TakeWhile
import Vecoda.MessagePipe

/-!
# Lua values of text

Byte strings with the library functions the adapter applies to them: the
character classes of Lua patterns in the C locale, `string.gsub` for a plain
text, `tonumber` and the C string view of a buffer. A Lua error is the only
failure.
-/

set_option autoImplicit false

namespace Vecoda.LuaText
open MessagePipe

inductive LuaError where
  | raised
  deriving DecidableEq, Repr

abbrev Lua (α : Type) := Except LuaError α

def byte (c : Char) : UInt8 := UInt8.ofNat c.toNat

def text (s : String) : Bytes := s.toList.map byte

def isSpace (b : UInt8) : Bool := b = 32 || (9 ≤ b && b ≤ 13)

def isDigit (b : UInt8) : Bool := byte '0' ≤ b && b ≤ byte '9'

def isAlpha (b : UInt8) : Bool :=
  (byte 'a' ≤ b && b ≤ byte 'z') || (byte 'A' ≤ b && b ≤ byte 'Z')

def isAlnum (b : UInt8) : Bool := isDigit b || isAlpha b

def decDigit (b : UInt8) : Option ℕ :=
  if isDigit b then some (b.toNat - (byte '0').toNat) else none

def hexDigit (b : UInt8) : Option ℕ :=
  if byte 'a' ≤ b && b ≤ byte 'f' then some (b.toNat - (byte 'a').toNat + 10)
  else if byte 'A' ≤ b && b ≤ byte 'F' then some (b.toNat - (byte 'A').toNat + 10)
  else decDigit b

def cstr (s : Bytes) : Bytes := s.takeWhile (· ≠ 0)

theorem cstr_id (s : Bytes) (h : 0 ∉ s) : cstr s = s := by
  apply List.takeWhile_eq_self_iff.mpr
  intro b hb
  have hne : b ≠ 0 := fun he => h (he ▸ hb)
  simpa using hne

def replaceAll (pat rep : Bytes) (s : Bytes) : Bytes :=
  match s with
  | [] => []
  | b::bs =>
    if pat ≠ [] ∧ pat.isPrefixOf (b::bs) then rep ++ replaceAll pat rep (bs.drop (pat.length-1))
    else b :: replaceAll pat rep bs
termination_by s.length
decreasing_by all_goals (simp only [List.length_cons, List.length_drop]; omega)

def ofDigits (digit : UInt8 → Option ℕ) (base : ℕ) (s : Bytes) : ℕ :=
  s.foldl (fun n b => (n * base + (digit b).getD 0) % 2^64) 0

def char (code : ℕ) : Lua UInt8 :=
  if code ≤ 255 then .ok (UInt8.ofNat code) else .error .raised

def trim (s : Bytes) : Bytes := ((s.dropWhile isSpace).reverse.dropWhile isSpace).reverse

/-- `tonumber` on a decimal integer numeral, the only kind the backend prints. -/
def tonumber (s : Bytes) : Option ℤ :=
  let unsigned (ds : Bytes) : Option ℤ :=
    if ds ≠ [] ∧ ds.all isDigit then
      some (ds.foldl (fun n b => n * 10 + ((b.toNat - (byte '0').toNat : ℕ) : ℤ)) 0)
    else none
  match trim s with
  | [] => none
  | b::bs => if b = byte '-' then (unsigned bs).map (- ·) else unsigned (b::bs)

example : tonumber (text " -12\n") = some (-12) := by decide

end Vecoda.LuaText
