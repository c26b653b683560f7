import Mathlib.Data.List.TakeDrop
import Vecoda.XmlSimple

/-!
# The channels between backend and adapter

The writers of the backend's `Channel` and the readers of the launcher's
`Channel` and `ReadWrite`. Every `Write` of at least one byte is one message.
A read fails when a part of its message is left over; a read that asked for
more than the message holds fails only if it completed asynchronously, and
otherwise leaves the end of its buffer as it was.
-/

set_option autoImplicit false

namespace Vecoda.Channel
open MessagePipe LuaText XmlSimple

/-- What `EventId_Initialize` told the launcher: `sizeof(void*)`. -/
inductive PointerSize where
  | x86
  | x64
  deriving DecidableEq, Repr

def PointerSize.bytes : PointerSize → ℕ
  | .x86 => 4
  | .x64 => 8

def write (s : Bytes) : List Bytes := if s = [] then [] else [s]

def writeUInt32 (value : ℕ) : List Bytes := write (leBytes 4 value)

def writeUInt (p : PointerSize) (value : ℕ) : List Bytes := write (leBytes p.bytes value)

def wireLength (s : Bytes) : ℕ := s.length % 2^32

def wireText (s : Bytes) : Bytes := s.take (wireLength s)

def writeString (value : Bytes) : List Bytes :=
  writeUInt32 (wireLength value) ++ write (wireText value)

def writeBool (value : Bool) : List Bytes := writeUInt32 (if value then 1 else 0)

/-- Which reads completed asynchronously, and the bytes that stood in their
buffers before. -/
structure Timing where
  pending : ℕ → Bool
  stale : ℕ → ℕ → UInt8

def filled (old : ℕ → UInt8) (n : ℕ) (data : Bytes) : Bytes :=
  data ++ (List.range (n - data.length)).map (fun i => old (data.length + i))

theorem filled_full (old : ℕ → UInt8) (n : ℕ) (data : Bytes) (h : data.length = n) :
    filled old n data = data := by
  simp [filled, h]

section Readers

variable (τ : Timing)

def read (length : ℕ) : Reading (Option Piece) :=
  if length = 0 then pure (some ⟨[],false,0⟩)
  else receive length >>= fun p =>
    pure (if !p.more && (!τ.pending p.index || p.data.length == length) then some p else none)

def readUInt32 : Reading (Option ℕ) :=
  read τ 4 >>= fun p => pure (p.map (fun p => ofLE (filled (τ.stale p.index) 4 p.data)))

def readUInt (m_size : PointerSize) : Reading (Option ℕ) :=
  read τ m_size.bytes >>= fun p =>
    pure (p.map (fun p => ofLE (filled (fun _ => 0) m_size.bytes p.data)))

def readString : Reading (Option Bytes) :=
  readUInt32 τ >>= fun length =>
    match length with
    | none => pure none
    | some length =>
      if length = 0 then pure (some [])
      else read τ length >>= fun p =>
        pure (p.map (fun p => cstr (filled (τ.stale p.index) length p.data)))

def readBool : Reading (Option Bool) :=
  readUInt32 τ >>= fun temp => pure (temp.map (fun t => t ≠ 0))

/-- The poll of the background read: nothing is delivered before a message is there. -/
def nReadUInt32 : Reading (Option ℕ) := fun port =>
  if port.pipe = [] then .ok (none,port) else readUInt32 τ port

theorem takes_read (m : Bytes) (n : ℕ) (hn : m.length = n) (h : n ≠ 0) {β : Type}
    (k : Option Piece → Reading β) (ns : List Bytes) (b : β)
    (hk : ∀ i, Takes (k (some ⟨m,false,i⟩)) ns b) : Takes (read τ n >>= k) (m::ns) b := by
  rw [read, if_neg h, bind_assoc]
  apply takes_receive m n hn
  intro i
  rw [pure_bind]
  simpa [hn] using hk i

theorem takes_readUInt32 (v : ℕ) (hv : v < 2^32) : Takes (readUInt32 τ) (writeUInt32 v) (some v) := by
  have hl := leBytes_length 4 v
  have hw : writeUInt32 v = [leBytes 4 v] := by simp [writeUInt32, write, leBytes]
  rw [hw]
  apply takes_read τ _ _ hl (by decide)
  intro i
  rw [Option.map_some, filled_full _ _ _ hl, ofLE_leBytes 4 v (by simpa using hv)]
  exact takes_pure (some v)

theorem takes_readUInt (p : PointerSize) (v : ℕ) (hv : v < 256^p.bytes) :
    Takes (readUInt τ p) (writeUInt p v) (some v) := by
  have hl := leBytes_length p.bytes v
  have hw : writeUInt p v = [leBytes p.bytes v] := by
    cases p <;> simp [writeUInt, write, leBytes, PointerSize.bytes]
  rw [hw]
  apply takes_read τ _ _ hl (by cases p <;> decide)
  intro i
  rw [Option.map_some, filled_full _ _ _ hl, ofLE_leBytes _ v hv]
  exact takes_pure (some v)

theorem wireText_length (s : Bytes) : (wireText s).length = wireLength s := by
  rw [wireText, List.length_take]
  exact Nat.min_eq_left (Nat.mod_le _ _)

theorem wireText_noNul (s : Bytes) (h : 0 ∉ s) : 0 ∉ wireText s :=
  fun hm => h (List.mem_of_mem_take hm)

theorem wireText_eq_iff (s : Bytes) : wireText s = s ↔ s.length < 2^32 := by
  rw [wireText, List.take_eq_self_iff, wireLength]
  constructor
  · intro h
    exact lt_of_le_of_lt h (Nat.mod_lt _ (by positivity))
  · intro h
    rw [Nat.mod_eq_of_lt h]

/-- A string comes back as far as its length field reaches, and to its first NUL. -/
theorem takes_readString_cstr (s : Bytes) :
    Takes (readString τ) (writeString s) (some (cstr (wireText s))) := by
  rw [readString, writeString]
  have hlen : wireLength s < 2^32 := Nat.mod_lt _ (by positivity)
  apply takes_bind (takes_readUInt32 τ _ hlen)
  have hw := wireText_length s
  by_cases hz : wireText s = []
  · have hz0 : wireLength s = 0 := by rw [← hw, hz]; rfl
    simpa [write, hz, hz0, cstr] using takes_pure (some ([] : Bytes))
  · have hn0 : wireLength s ≠ 0 := by rw [← hw]; simpa using hz
    simp only [write, hz, if_false, hn0]
    apply takes_read τ _ _ hw hn0
    intro i
    rw [Option.map_some, filled_full _ _ _ hw]
    exact takes_pure (some (cstr (wireText s)))

theorem takes_readString (s : Bytes) (h : 0 ∉ s) :
    Takes (readString τ) (writeString s) (some (wireText s)) := by
  have hread := takes_readString_cstr τ s
  rwa [cstr_id _ (wireText_noNul s h)] at hread

theorem takes_readBool (v : Bool) : Takes (readBool τ) (writeBool v) (some v) := by
  rw [readBool, writeBool, ← List.append_nil (writeUInt32 _)]
  apply takes_bind (takes_readUInt32 τ _ (by split <;> decide))
  cases v <;> exact takes_pure _

theorem extends_read (n : ℕ) : Extends (read τ n) := by
  unfold read
  split
  · exact extends_pure _
  · exact extends_bind (extends_receive n) (fun _ => extends_pure _)

theorem extends_readUInt32 : Extends (readUInt32 τ) :=
  extends_bind (extends_read τ 4) (fun _ => extends_pure _)

theorem extends_readString : Extends (readString τ) := by
  apply extends_bind (extends_readUInt32 τ)
  intro length
  cases length with
  | none => exact extends_pure _
  | some length =>
    simp only
    split
    · exact extends_pure _
    · exact extends_bind (extends_read τ length) (fun _ => extends_pure _)

/-- Four bytes are read of a message that holds more. -/
theorem splits_readUInt32 (m : Bytes) (h : 4 < m.length) : Splits (readUInt32 τ) [] m :=
  splits_bind (splits_bind (splits_receive m 4 h) (fun _ => extends_pure _)) (fun _ => extends_pure _)

end Readers

end Vecoda.Channel
