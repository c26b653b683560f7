import Vecoda.Channel

/-!
# String fields of a byte stream

`WriteString` and `ReadString` of the backend's `Channel` and of the launcher's
`ReadWrite`, over a stream of bytes that may end at any point. The two copies
differ in the arithmetic of the buffer's size and in the length that a failed
`ReadUInt32` leaves. Both give the buffer to a string as a C string.
-/

set_option autoImplicit false

namespace Vecoda.StringFields
open MessagePipe LuaText

inductive Side where
  | backend
  | launcher (m : Channel.PointerSize)
  deriving DecidableEq, Repr

def read (length : ℕ) (stream : Bytes) : Option (Bytes × Bytes) :=
  if length ≤ stream.length then some (stream.take length,stream.drop length) else none

/-- The result, the value it leaves in its parameter and the rest of the stream. -/
def Side.readUInt32 (side : Side) (value : ℕ) (stream : Bytes) : Bool × ℕ × Bytes :=
  match read 4 stream with
  | some (temp,rest) => (true,ofLE temp,rest)
  | none =>
    match side with
    | .backend => (false,value,[])
    | .launcher _ => (false,0,[])

/-- The bytes that `new char[length + 1]` gets: an `unsigned int` in the backend, a `size_t` in
the launcher. -/
def Side.room (side : Side) (length : ℕ) : ℕ :=
  match side with
  | .backend => (length+1) % 2^32
  | .launcher p => (length+1) % 256^p.bytes

structure Outcome where
  returned : Bool
  value : Bytes
  stream : Bytes
  deriving DecidableEq, Repr

/-- `ReadString`, with the value of the uninitialised `length` and of the target before. There is
no outcome where the buffer is too small for what is written to it. -/
def Side.readString (side : Side) (stale : ℕ) (value : Bytes) (stream : Bytes) : Option Outcome :=
  let (result,length,rest) := side.readUInt32 stale stream
  if !result then some ⟨false,value,rest⟩
  else if length ≠ 0 then
    if side.room length ≤ length then none
    else
      match read length rest with
      | none => some ⟨false,value,[]⟩
      | some (buffer,rest) => some ⟨true,cstr (buffer ++ [0]),rest⟩
  else some ⟨true,[],rest⟩

def Side.writeString (_side : Side) (value : Bytes) : Bytes := (Channel.writeString value).flatten

theorem read_append (s rest : Bytes) : read s.length (s ++ rest) = some (s,rest) := by
  simp [read]

theorem read_short (length : ℕ) (stream : Bytes) (h : stream.length < length) :
    read length stream = none := if_neg (not_le.mpr h)

theorem cstr_terminated (s : Bytes) : cstr (s ++ [0]) = cstr s := by
  rw [cstr, List.takeWhile_append]
  split
  · next h => simpa [cstr] using ((List.takeWhile_prefix _).eq_of_length h).symm
  · rfl

theorem cstr_eq_iff (s : Bytes) : cstr s = s ↔ 0 ∉ s := by
  refine ⟨fun h hz => ?_,cstr_id s⟩
  rw [← h] at hz
  simpa using List.mem_takeWhile_imp hz

section Fields

variable {s : Bytes}

def header (s : Bytes) : Bytes := leBytes 4 s.length

theorem header_length (s : Bytes) : (header s).length = 4 := leBytes_length 4 _

theorem writeString_eq (side : Side) (h : s.length < 2^32-1) : side.writeString s = header s ++ s := by
  have hwire : Channel.wireLength s = s.length := Nat.mod_eq_of_lt (by omega)
  have htext : Channel.wireText s = s := by rw [Channel.wireText, hwire, List.take_length]
  have hwrite (t : Bytes) : (Channel.write t).flatten = t := by
    rw [Channel.write]
    split
    · next ht => exact ht.symm
    · exact List.append_nil t
  rw [Side.writeString, Channel.writeString, List.flatten_append, htext, Channel.writeUInt32, hwire,
    hwrite, hwrite]
  rfl

theorem readUInt32_header (side : Side) (h : s.length < 2^32-1) (stale : ℕ) (rest : Bytes) :
    side.readUInt32 stale (header s ++ rest) = (true,s.length,rest) := by
  have hread := read_append (header s) rest
  rw [header_length] at hread
  simp only [Side.readUInt32, hread]
  rw [header, ofLE_leBytes 4 s.length (by norm_num; omega)]

theorem readUInt32_short (side : Side) (stale : ℕ) {stream : Bytes} (h : stream.length < 4) :
    (side.readUInt32 stale stream).1 = false := by
  simp only [Side.readUInt32, read_short 4 stream h]
  cases side <;> rfl

/-- Below the largest length the buffer has room for the text and its NUL. -/
theorem room_enough (side : Side) {length : ℕ} (h : length < 2^32-1) : side.room length = length+1 := by
  cases side with
  | backend => exact Nat.mod_eq_of_lt (by omega)
  | launcher p =>
    refine Nat.mod_eq_of_lt (lt_of_lt_of_le (by omega : length+1 < 256^4) ?_)
    exact Nat.pow_le_pow_right (by omega) (by cases p <;> decide)

/-- What a reader makes of a field after its prefix. -/
theorem readString_body (side : Side) (h : s.length < 2^32-1) (stale : ℕ) (value stream : Bytes) :
    side.readString stale value (header s ++ stream) =
      if s.length ≤ stream.length then some ⟨true,cstr (stream.take s.length),stream.drop s.length⟩
      else some ⟨false,value,[]⟩ := by
  rw [Side.readString, readUInt32_header side h]
  by_cases hz : s.length = 0
  · simp [hz, cstr]
  · have hroom : ¬ s.length+1 ≤ s.length := by omega
    simp only [Bool.not_true, Bool.false_eq_true, if_false, ne_eq, hz, not_false_eq_true, if_true,
      room_enough side h, hroom, read]
    by_cases hs : s.length ≤ stream.length
    · simp only [hs, if_true, cstr_terminated]
    · simp only [hs, if_false]

end Fields

/-- A string comes back, at its end of the stream; a field that is cut off fails and changes nothing. -/
structure RoundTrips (writer reader : Side) (s : Bytes) : Prop where
  whole : ∀ stale value rest,
    reader.readString stale value (writer.writeString s ++ rest) = some ⟨true,s,rest⟩
  cut : ∀ stale value n, n < (writer.writeString s).length →
    ∃ rest, reader.readString stale value ((writer.writeString s).take n) = some ⟨false,value,rest⟩

theorem readString_whole (writer reader : Side) {s : Bytes} (h : s.length < 2^32-1) (stale : ℕ)
    (value rest : Bytes) :
    reader.readString stale value (writer.writeString s ++ rest) = some ⟨true,cstr s,rest⟩ := by
  rw [writeString_eq writer h, List.append_assoc, readString_body reader h]
  simp

theorem readString_cut (writer reader : Side) {s : Bytes} (h : s.length < 2^32-1) (stale : ℕ)
    (value : Bytes) (n : ℕ) (hn : n < (writer.writeString s).length) :
    ∃ rest, reader.readString stale value ((writer.writeString s).take n) = some ⟨false,value,rest⟩ := by
  have hwritten := writeString_eq writer h
  rw [hwritten, List.length_append, header_length] at hn
  rw [hwritten]
  by_cases hshort : n < 4
  · have hfail : ((header s ++ s).take n).length < 4 := by
      rw [List.length_take]
      omega
    refine ⟨(reader.readUInt32 stale ((header s ++ s).take n)).2.2,?_⟩
    simp only [Side.readString, readUInt32_short reader stale hfail]
    rfl
  · have htake : (header s ++ s).take n = header s ++ s.take (n-4) := by
      rw [List.take_append, header_length, List.take_of_length_le (by rw [header_length]; omega)]
    refine ⟨[],?_⟩
    rw [htake, readString_body reader h, if_neg]
    rw [List.length_take]
    omega

theorem roundTrips_iff (writer reader : Side) (s : Bytes) (h : s.length < 2^32-1) :
    RoundTrips writer reader s ↔ 0 ∉ s := by
  rw [← cstr_eq_iff]
  constructor
  · intro hround
    have hread := hround.whole 0 [] []
    rw [readString_whole writer reader h] at hread
    exact congrArg Outcome.value (Option.some.inj hread)
  · intro hs
    refine ⟨fun stale value rest => ?_,readString_cut writer reader h⟩
    rw [readString_whole writer reader h, hs]

/-- A string without NUL, and only such a string, makes the trip in both directions. -/
theorem string_field_iff (p : Channel.PointerSize) (s : Bytes) (h : s.length < 2^32-1) :
    (RoundTrips .backend (.launcher p) s ∧ RoundTrips (.launcher p) .backend s) ↔ 0 ∉ s := by
  rw [roundTrips_iff _ _ s h, roundTrips_iff _ _ s h, and_self]

theorem string_field_iff_path :
    (RoundTrips .backend (.launcher .x64) (text "a.lua") ∧ RoundTrips (.launcher .x64) .backend (text "a.lua")) ↔
      0 ∉ text "a.lua" :=
  string_field_iff .x64 (text "a.lua") (by decide)

theorem nul_not_roundTrips : [97,0,98].length < 2^32-1 ∧
    ¬ (RoundTrips .backend (.launcher .x64) [97,0,98] ∧ RoundTrips (.launcher .x64) .backend [97,0,98]) := by
  refine ⟨by decide,fun h => ?_⟩
  have hread := h.1.whole 0 [] []
  rw [readString_whole _ _ (by decide)] at hread
  exact absurd (congrArg Outcome.value (Option.some.inj hread)) (by decide)

end Vecoda.StringFields
